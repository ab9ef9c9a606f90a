import Leano.HttpRequests.Defs
import Leano.Lib.Last

namespace Leano.HttpRequests

open Leano.Lib

variable {curl : Curl}

def Options.security (o : Options) : Bool × Bool × Bool :=
  (o.followLocation, o.sslVerifyPeer, o.sslVerifyHost)

namespace Call

def method : Call → Option Method
  | .post (some _) (some _) _ => some .post
  | .postBinary (some _) (some _) _ _ => some .post
  | .get (some _) _ => some .get
  | _ => none

def gets : Call → Bool
  | .get (some _) _ => true
  | _ => false

def security (c : Call) : Option (Bool × Bool × Bool) :=
  if c.gets then some (true, false, false) else none

def binarySize : Call → Option Nat
  | .postBinary (some _) (some _) nSize _ => some nSize.toNat
  | _ => none

end Call

structure Effect (c : Call) (o o' : Options) : Prop where
  method : o'.method = c.method.getD o.method
  security : o'.security = c.security.getD o.security
  size : o'.postFieldSize = c.binarySize.or o.postFieldSize

structure Agree (o o' : Options) : Prop where
  method : o'.method = o.method
  security : o'.security = o.security
  size : o'.postFieldSize = o.postFieldSize

variable {s t : State curl} {r : Bool × State curl} {tr : Transfer} {c : Call} {o : Options}

theorem Agree.refl : Agree o o := ⟨rfl, rfl, rfl⟩

theorem Agree.setopt {setting : Setting} {rc : CurlCode} (ho : s.options = some o)
    (agree : Agree o (o.set setting)) :
    ∃ o', (s.setopt setting rc).2.options = some o' ∧ Agree o o' := by
  rw [State.options_setopt, ho, Option.map_some]
  split
  case isTrue => exact ⟨_, rfl, agree⟩
  case isFalse => exact ⟨_, rfl, .refl⟩

theorem agree_of_sets (ho : s.options = some o) (hs : State.Sets s c t) :
    ∃ o', t.options = some o' ∧ Agree o o' := by
  cases hs with
  | still => exact ⟨o, ho, .refl⟩
  | @setopt _ setting port rc plain =>
    refine Agree.setopt (s := { s with port := port }) ho ?_
    cases setting with
    | port | timeout | connectTimeout | userAgent | cookie | resumeFrom => exact ⟨rfl, rfl, rfl⟩
    | _ => cases plain
  | addHeader eq =>
    subst eq
    refine Agree.setopt ?_ ⟨rfl, rfl, rfl⟩
    refine Eq.trans ?_ ho
    unfold State.slistAppend
    split
    · split <;> rfl
    · rfl
  | clear => exact ⟨o, ho, .refl⟩
  | callback => exact ⟨o, ho, .refl⟩

theorem Effect.of_agree {o' : Options} (method : c.method = none) (gets : c.gets = false)
    (size : c.binarySize = none) (agree : Agree o o') : Effect c o o' where
  method := by rw [method]; exact agree.method
  security := by rw [Call.security, gets]; exact agree.security
  size := by rw [size]; exact agree.size

theorem effect_of_step (ho : s.options = some o) (hs : step s c = some t) :
    ∃ o', t.options = some o' ∧ Effect c o o' := by
  have live : s.pCurl ≠ none := by
    rintro dead
    rw [State.options, dead] at ho
    cases ho
  have quiet (method : c.method = none) (gets : c.gets = false) (size : c.binarySize = none)
      (h : ∃ o', t.options = some o' ∧ Agree o o') : ∃ o', t.options = some o' ∧ Effect c o o' := by
    obtain ⟨o', ho', agree⟩ := h
    exact ⟨o', ho', .of_agree method gets size agree⟩
  have same (method : c.method = none) (gets : c.gets = false) (size : c.binarySize = none)
      (h : t.options = some o) : ∃ o', t.options = some o' ∧ Effect c o o' :=
    quiet method gets size ⟨o, h, .refl⟩
  cases c with
  | downloadFile lpUrl lpFile opened tr =>
    obtain ⟨r, hr, rfl⟩ := Option.map_eq_some_iff.mp hs
    obtain ⟨url, file, -, -, -, hp⟩ | ⟨url, rfl⟩ | rfl := State.downloadFile_cases hr
    · have after := (State.perform_performs hp).options
      rw [State.options_toDownload, ho] at after
      exact quiet rfl rfl rfl ⟨_, after, rfl, rfl, rfl⟩
    · have after : (s.put (.url url)).options = some (o.set (.url url)) := by
        rw [State.options_put, ho]
        rfl
      exact quiet rfl rfl rfl ⟨_, after, rfl, rfl, rfl⟩
    · exact same rfl rfl rfl ho
  | post lpUrl lpData tr =>
    obtain ⟨r, hr, rfl⟩ := Option.map_eq_some_iff.mp hs
    obtain ⟨url, data, rfl, rfl, -, hp⟩ | ⟨refused, rfl⟩ := State.checkPost_cases hr
    · have after := (State.perform_performs hp).options
      rw [State.options_toPost, ho] at after
      exact ⟨_, after, rfl, rfl, rfl⟩
    · obtain dead | rfl | rfl := refused
      · exact absurd dead live
      · exact same rfl rfl rfl ho
      · cases lpUrl <;> exact same rfl rfl rfl ho
  | postBinary lpUrl lpData nSize tr =>
    obtain ⟨r, hr, rfl⟩ := Option.map_eq_some_iff.mp hs
    obtain ⟨url, data, rfl, rfl, -, hp⟩ | ⟨refused, rfl⟩ := State.checkPost_cases hr
    · have after := (State.perform_performs hp).options
      rw [State.options_toPostBinary, ho] at after
      exact ⟨_, after, rfl, rfl, rfl⟩
    · obtain dead | rfl | rfl := refused
      · exact absurd dead live
      · exact same rfl rfl rfl ho
      · cases lpUrl <;> exact same rfl rfl rfl ho
  | get lpUrl tr =>
    obtain ⟨r, hr, rfl⟩ := Option.map_eq_some_iff.mp hs
    obtain ⟨url, rfl, hp⟩ | ⟨rfl, rfl⟩ := State.get_cases hr
    · have after := (State.perform_performs hp).options
      rw [State.options_toGet, ho] at after
      exact ⟨_, after, rfl, rfl, rfl⟩
    · exact same rfl rfl rfl ho
  | _ => exact quiet rfl rfl rfl (agree_of_sets ho (State.sets_of_step rfl hs))

structure After (calls : List Call) (o : Options) : Prop where
  method : o.method = (last Call.method calls).getD .get
  security : o.security = (last Call.security calls).getD (false, true, true)
  size : o.postFieldSize = last Call.binarySize calls

variable {calls : List Call} {files : Bytes → Option Bytes}

theorem after_of_run (h : run step (State.init (some curl.init) files) calls = some s) :
    ∃ o, s.options = some o ∧ After calls o := by
  have fresh : (State.init (some curl.init) files).options = some .fresh :=
    congrArg some curl.options_init
  have keep : ∀ (s : State curl) c t, (∃ o, s.options = some o) → step s c = some t →
      ∃ o, t.options = some o := by
    rintro s c t ⟨o, ho⟩ hs
    obtain ⟨o', ho', -⟩ := effect_of_step ho hs
    exact ⟨o', ho'⟩
  have cell {β : Type} {f : Call → Option β} (g : Options → Option β)
      (effect : ∀ c o o', Effect c o o' → g o' = (f c).or (g o)) :
      s.options.bind g = (last f calls).or (g .fresh) := by
    refine (last_of_run (f := f) (g := fun s => s.options.bind g) keep ?_ ⟨_, fresh⟩ h).trans ?_
    · rintro s c t ⟨o, ho⟩ hs
      obtain ⟨o', ho', he⟩ := effect_of_step ho hs
      rw [ho, ho']
      exact effect c o o' he
    · rw [fresh]
      rfl
  obtain ⟨o, ho⟩ : ∃ o, s.options = some o :=
    (reach_of_run h).invariant ⟨_, fresh⟩ fun s c t _ some _ hs => keep s c t some hs
  refine ⟨o, ho, ?_, ?_, ?_⟩
  · have method := cell (f := Call.method) (fun o => some o.method) fun c o o' he => by
      rw [he.method, Option.or_some]
    rw [ho, Option.or_some] at method
    exact Option.some.inj method
  · have security := cell (f := Call.security) (fun o => some o.security) fun c o o' he => by
      rw [he.security, Option.or_some]
    rw [ho, Option.or_some] at security
    exact Option.some.inj security
  · have size := cell (f := Call.binarySize) Options.postFieldSize fun c o o' he => he.size
    rw [ho, show Options.fresh.postFieldSize = none from rfl, Option.or_none] at size
    exact size

theorem Options.body_eq_iff {data : Bytes} (fields : o.postFields = some data) (nul : 0 ∈ data) :
    o.body = some (beforeNul data) ↔
      ∀ size, o.postFieldSize = some size → strlen data = some size := by
  have length : strlen data = some (beforeNul data).length := by rw [strlen_eq, if_pos nul]
  have whole : data.take (beforeNul data).length = beforeNul data :=
    List.prefix_iff_eq_take.mp (List.takeWhile_prefix _) |>.symm
  rw [Options.body, fields, Option.bind_some]
  cases hsize : o.postFieldSize with
  | none => simp [length, whole]
  | some size =>
    simp only [length, Option.some.injEq, forall_eq']
    split
    case isTrue le =>
      rw [Option.some.injEq]
      constructor
      · intro sent
        have same := congrArg List.length sent
        rw [List.length_take_of_le le] at same
        exact same.symm
      · rintro rfl
        exact whole
    case isFalse gt =>
      refine ⟨nofun, ?_⟩
      rintro rfl
      exact absurd (beforeNul_length_lt nul).le gt

/-- A text `Post` sends its string exactly if the last binary `Post` before it, if there was any,
was of the same length: nothing else sets `CURLOPT_POSTFIELDSIZE`. -/
theorem post_body {url data : Bytes} (nul : 0 ∈ data)
    (h : run step (State.init (some curl.init) files)
      (calls ++ [.post (some url) (some data) tr]) = some s) :
    ∃ o, s.performed.getLast? = some o ∧
      (o.body = some (beforeNul data) ↔
        ∀ size, last Call.binarySize calls = some size → strlen data = some size) := by
  rw [run_concat] at h
  obtain ⟨u, before, hs⟩ := Option.bind_eq_some_iff.mp h
  obtain ⟨o, ho, after⟩ := after_of_run before
  obtain ⟨r, hr, rfl⟩ := Option.map_eq_some_iff.mp hs
  obtain ⟨url, data, ⟨⟩, ⟨⟩, -, hp⟩ | ⟨refused, -⟩ := State.checkPost_cases hr
  · have performed := (State.perform_performs hp).performed
    rw [State.options_toPost, ho] at performed
    refine ⟨_, by rw [performed]; exact List.getLast?_concat, ?_⟩
    rw [Options.body_eq_iff rfl nul, ← after.size]
    rfl
  · obtain dead | ⟨⟨⟩⟩ | ⟨⟨⟩⟩ := refused
    rw [State.options, dead] at ho
    cases ho

theorem post_body_of_three : ∃ s : State Curl.plain, ∃ o, s.performed.getLast? = some o ∧
    (o.body = some [97, 98, 99] ↔ ∀ size, last Call.binarySize
      [.postBinary (some [117]) (some [1, 2, 3]) 3 ⟨[], .ok⟩] = some size →
      strlen [97, 98, 99, 0] = some size) := by
  have h : run step (State.init (some Curl.plain.init) fun _ => none : State Curl.plain)
    ([.postBinary (some [117]) (some [1, 2, 3]) 3 ⟨[], .ok⟩] ++
      [.post (some [117]) (some [97, 98, 99, 0]) ⟨[], .ok⟩]) = some _ := rfl
  exact ⟨_, post_body (by decide) h⟩

/-- After a binary `Post` of one byte a text `Post` sends one. -/
theorem post_body_short : ¬ ∀ (s : State Curl.plain) (calls : List Call) (url data : Bytes) tr,
    0 ∈ data → run step (State.init (some Curl.plain.init) fun _ => none)
      (calls ++ [.post (some url) (some data) tr]) = some s →
    ∃ o, s.performed.getLast? = some o ∧ o.body = some (beforeNul data) := by
  intro all
  obtain ⟨o, last, body⟩ := all _ [.postBinary (some [117]) (some [1]) 1 ⟨[], .ok⟩] [117]
    [97, 98, 99, 0] ⟨[], .ok⟩ (by decide) rfl
  cases last
  exact absurd body (by decide)

/-- A `Post` or `DownloadFile` that passes its checks, and whose file can be opened. -/
inductive Request where
  | post (lpUrl lpData : Bytes)
  | postBinary (lpUrl lpData : Bytes) (nSize : UInt32)
  | downloadFile (lpUrl lpFile : Bytes)

namespace Request

def call : Request → Transfer → Call
  | .post lpUrl lpData, t => .post (some lpUrl) (some lpData) t
  | .postBinary lpUrl lpData nSize, t => .postBinary (some lpUrl) (some lpData) nSize t
  | .downloadFile lpUrl lpFile, t => .downloadFile (some lpUrl) (some lpFile) true t

def method : Request → Method
  | .post _ _ => .post
  | .postBinary _ _ _ => .post
  | .downloadFile _ _ => .get

def options (o : Options) : Request → Options
  | .post lpUrl lpData => ((o.set .post).set (.url lpUrl)).set (.postFields lpData)
  | .postBinary lpUrl lpData nSize =>
    (((o.set .post).set (.postFields lpData)).set (.postFieldSize nSize.toNat)).set (.url lpUrl)
  | .downloadFile lpUrl _ => (o.set (.url lpUrl)).set (.noProgress false)

end Request

def PerformedWith (s : State curl) (q : Request) (o' : Options) : Prop :=
  ∃ tr t, step s (q.call tr) = some t ∧ t.performed = s.performed ++ [o']

variable {q : Request} {o' : Options}

theorem performedWith_iff (ho : s.options = some o) : PerformedWith s q o' ↔ o' = q.options o := by
  obtain ⟨handle, hh, -⟩ := Option.map_eq_some_iff.mp ho
  have step_eq : ∃ u : State curl, u.options = some (q.options o) ∧ u.performed = s.performed ∧
      ∀ tr, step s (q.call tr) = (u.perform tr).map Prod.snd := by
    cases q with
    | post url data =>
      refine ⟨s.toPost url data, by rw [State.options_toPost, ho]; rfl, rfl, fun tr => ?_⟩
      simp only [Request.call, step, State.post, State.checkPost, hh]
    | postBinary url data nSize =>
      refine ⟨s.toPostBinary url data nSize, by rw [State.options_toPostBinary, ho]; rfl, rfl,
        fun tr => ?_⟩
      simp only [Request.call, step, State.postBinary, State.checkPost, hh]
    | downloadFile url file =>
      exact ⟨s.toDownload url, by rw [State.options_toDownload, ho]; rfl, rfl, fun tr => rfl⟩
  obtain ⟨u, hu, same, step_eq⟩ := step_eq
  constructor
  · rintro ⟨tr, t, hs, performed⟩
    rw [step_eq] at hs
    obtain ⟨r, hr, rfl⟩ := Option.map_eq_some_iff.mp hs
    have now := (State.perform_performs hr).performed
    rw [hu, same, performed] at now
    cases List.append_cancel_left now
    rfl
  · rintro rfl
    have quiet : ∃ r, u.perform ⟨[], .ok⟩ = some r := by
      rw [State.perform, hu]
      exact ⟨_, rfl⟩
    obtain ⟨r, hr⟩ := quiet
    refine ⟨⟨[], .ok⟩, r.2, by rw [step_eq, hr]; rfl, ?_⟩
    rw [(State.perform_performs hr).performed, hu, same]
    rfl

theorem Request.security_options : (q.options o).security = o.security := by cases q <;> rfl

theorem Request.method_options :
    (q.options o).method = q.method ↔ (q.method = .get → o.method = .get) := by
  cases q with
  | post => exact iff_of_true rfl nofun
  | postBinary => exact iff_of_true rfl nofun
  | downloadFile => exact ⟨fun get _ => get, fun get => get rfl⟩

theorem After.security_eq (after : After calls o) :
    o.security = if calls.any Call.gets then (true, false, false) else (false, true, true) := by
  have held : last Call.security calls =
      if calls.any Call.gets then some (true, false, false) else none := last_const _
  rw [after.security, held]
  cases calls.any Call.gets <;> rfl

theorem After.method_eq (after : After calls o) :
    o.method = .get ↔ last Call.method calls ≠ some .post := by
  rw [after.method]
  cases last Call.method calls with
  | none => decide
  | some m => cases m <;> decide

/-- Two histories lead to the same kind of transfer exactly if both have a `Get` or none has, which
alone sets redirects and verification; and before a `DownloadFile`, which does not choose its
method, only if neither has chosen POST last. -/
theorem same_kind {files₁ files₂ : Bytes → Option Bytes} {calls₁ calls₂ : List Call}
    {s₁ s₂ : State curl} (h₁ : run step (State.init (some curl.init) files₁) calls₁ = some s₁)
    (h₂ : run step (State.init (some curl.init) files₂) calls₂ = some s₂) (q : Request) :
    (∀ o₁ o₂, PerformedWith s₁ q o₁ → PerformedWith s₂ q o₂ →
      o₁.method = q.method ∧ o₂.method = q.method ∧ o₁.security = o₂.security) ↔
    calls₁.any Call.gets = calls₂.any Call.gets ∧
      (q.method = .get →
        last Call.method calls₁ ≠ some .post ∧ last Call.method calls₂ ≠ some .post) := by
  obtain ⟨o₁, ho₁, after₁⟩ := after_of_run h₁
  obtain ⟨o₂, ho₂, after₂⟩ := after_of_run h₂
  have security : o₁.security = o₂.security ↔ calls₁.any Call.gets = calls₂.any Call.gets := by
    rw [after₁.security_eq, after₂.security_eq]
    cases calls₁.any Call.gets <;> cases calls₂.any Call.gets <;> decide
  calc
    _ ↔ (q.options o₁).method = q.method ∧ (q.options o₂).method = q.method ∧
        (q.options o₁).security = (q.options o₂).security := by
      simp only [performedWith_iff ho₁, performedWith_iff ho₂]
      exact ⟨fun all => all _ _ rfl rfl, fun same _ _ e₁ e₂ => e₁ ▸ e₂ ▸ same⟩
    _ ↔ (q.method = .get → o₁.method = .get) ∧ (q.method = .get → o₂.method = .get) ∧
        o₁.security = o₂.security := by
      rw [Request.method_options, Request.method_options, Request.security_options,
        Request.security_options]
    _ ↔ _ := by
      rw [after₁.method_eq, after₂.method_eq, security, ← and_assoc, ← imp_and, and_comm]

theorem same_kind_of_get : ∃ s₁ s₂ : State Curl.plain,
    (∀ o₁ o₂, PerformedWith s₁ (.downloadFile [117] [102]) o₁ →
      PerformedWith s₂ (.downloadFile [117] [102]) o₂ →
      o₁.method = .get ∧ o₂.method = .get ∧ o₁.security = o₂.security) := by
  have h₁ : run step (State.init (some Curl.plain.init) fun _ => none : State Curl.plain)
    [.get (some [117]) ⟨[], .ok⟩] = some _ := rfl
  have h₂ : run step (State.init (some Curl.plain.init) fun _ => none : State Curl.plain)
    [.post (some [117]) (some [0]) ⟨[], .ok⟩, .get (some [118]) ⟨[], .ok⟩] = some _ := rfl
  exact ⟨_, _, (same_kind h₁ h₂ (.downloadFile [117] [102])).mpr ⟨rfl, by decide⟩⟩

/-- A `Post` after a `Get` follows redirects and verifies nothing. -/
theorem kind_depends : ¬ ∀ (calls₁ calls₂ : List Call) (s₁ s₂ : State Curl.plain),
    calls₁.filter Call.sets = calls₂.filter Call.sets →
    run step (State.init (some Curl.plain.init) fun _ => none) calls₁ = some s₁ →
    run step (State.init (some Curl.plain.init) fun _ => none) calls₂ = some s₂ →
    ∀ q o₁ o₂, PerformedWith s₁ q o₁ → PerformedWith s₂ q o₂ →
      o₁.method = q.method ∧ o₂.method = q.method ∧ o₁.security = o₂.security := by
  intro all
  obtain ⟨-, -, same⟩ := all [] [.get (some [117]) ⟨[], .ok⟩] _ _ rfl rfl rfl (.post [117] [0]) _ _
    ⟨⟨[], .ok⟩, _, rfl, rfl⟩ ⟨⟨[], .ok⟩, _, rfl, rfl⟩
  exact absurd same (by decide)

end Leano.HttpRequests
