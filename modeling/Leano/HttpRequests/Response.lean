import Leano.HttpRequests.Defs
import Leano.Lib.Last

namespace Leano.HttpRequests

open Leano.Lib

variable {curl : Curl}

def Call.delivered (easy : Bool) : Call → Option (List Chunk)
  | .post (some _) (some _) t => if easy then some (chunksOf t.events) else none
  | .postBinary (some _) (some _) _ t => if easy then some (chunksOf t.events) else none
  | .get (some _) t => some (if easy then chunksOf t.events else [])
  | _ => none

def Call.Quiet : Call → Prop
  | .downloadFile _ _ _ t => ∀ e ∈ t.events, e ≠ .progress
  | .post _ _ t => ∀ e ∈ t.events, e ≠ .progress
  | .postBinary _ _ _ t => ∀ e ∈ t.events, e ≠ .progress
  | .get _ t => ∀ e ∈ t.events, e ≠ .progress
  | _ => True

variable {s t u : State curl} {r : Bool × State curl} {events : List Event} {tr : Transfer}
  {c : Call}

section delivery

theorem deliver_text (text : s.flag = .rPost ∨ s.flag = .rGet) (h : s.deliver events = some r) :
    r.1 = true ∧ r.2.responsStr = s.responsStr ++ (chunksOf events).flatMap Chunk.data ∧
      r.2.reports = s.reports ++
        (chunksOf events).map fun c => (c.nSize * c.nMemByte, c.nSize * c.nMemByte) := by
  induction events generalizing s with
  | nil => cases h; exact ⟨rfl, (List.append_nil _).symm, (List.append_nil _).symm⟩
  | cons e events ih =>
    cases e with
    | progress => exact ih text (State.deliver_progress h)
    | chunk c written =>
      have written : s.writeCallback c written =
          (c.nSize * c.nMemByte, { s with responsStr := s.responsStr ++ c.data }) := by
        obtain post | get := text
        · simp only [State.writeCallback, post]
        · simp only [State.writeCallback, get]
      simp only [State.deliver, written, if_true] at h
      obtain ⟨all, responsStr, reports⟩ :=
        ih (s := State.report { s with responsStr := s.responsStr ++ c.data } c _) text h
      refine ⟨all, responsStr.trans ?_, reports.trans ?_⟩
      · exact List.append_assoc ..
      · exact List.append_assoc ..

theorem deliver_download (download : s.flag = .rDownload) (h : s.deliver events = some r) :
    r.2.responsStr = s.responsStr := by
  induction events generalizing s with
  | nil => cases h; rfl
  | cons e events ih =>
    cases e with
    | progress => exact ih download (State.deliver_progress h)
    | chunk c written =>
      have frame := State.writeCallback_frame (s := s) c written
      have same : (s.writeCallback c written).2.responsStr = s.responsStr := by
        unfold State.writeCallback
        rw [download]
        cases s.fp <;> rfl
      obtain ⟨-, h⟩ | ⟨-, rfl⟩ := State.deliver_chunk h
      · exact (ih (s := State.report _ c _) (frame.flag.trans download) h).trans same
      · exact same

theorem deliver_defined (ok : s.callback = true ∨ ∀ e ∈ events, e ≠ .progress) :
    ∃ r, s.deliver events = some r := by
  induction events generalizing s with
  | nil => exact ⟨_, rfl⟩
  | cons e events ih =>
    cases e with
    | progress =>
      have given : s.callback = true :=
        ok.resolve_right fun quiet => absurd rfl (quiet _ List.mem_cons_self)
      have passes : s.progressCallback = some s := if_neg fun null => by
        cases given.symm.trans null.2
      obtain ⟨r, hr⟩ := ih (.inl given)
      exact ⟨r, by rw [State.deliver, passes]; exact hr⟩
    | chunk c written =>
      have callback := (State.writeCallback_frame (s := s) c written).callback
      have rest := ok.imp callback.trans fun quiet e he => quiet e (List.mem_cons_of_mem _ he)
      simp only [State.deliver]
      split
      · exact ih (s := State.report _ c _) rest
      · exact ⟨_, rfl⟩

theorem perform_defined (ok : s.callback = true ∨ ∀ e ∈ tr.events, e ≠ .progress) :
    ∃ r, s.perform tr = some r ∧ r.2.callback = s.callback := by
  obtain ⟨r, hr⟩ : ∃ r, s.perform tr = some r := by
    unfold State.perform
    cases s.options with
    | none => exact ⟨_, rfl⟩
    | some o =>
      obtain ⟨r, hr⟩ := deliver_defined (s := s.start o) ok
      exact ⟨_, congrArg (Option.map _) hr⟩
  exact ⟨r, hr, (State.perform_performs hr).callback⟩

end delivery

structure SameText (s t : State curl) : Prop where
  handle : t.pCurl.isSome = s.pCurl.isSome
  responsStr : t.responsStr = s.responsStr

theorem SameText.refl : SameText s s := ⟨rfl, rfl⟩

theorem SameText.trans (h : SameText s u) (h' : SameText u t) : SameText s t :=
  ⟨h'.handle.trans h.handle, h'.responsStr.trans h.responsStr⟩

theorem SameText.setopt {setting : Setting} {rc : CurlCode} :
    SameText s (s.setopt setting rc).2 := by
  unfold State.setopt
  split
  case h_1 => exact ⟨rfl, rfl⟩
  case h_2 handle hh => exact ⟨by rw [hh]; rfl, rfl⟩

theorem sameText_of_sets (hs : State.Sets s c t) : SameText s t := by
  cases hs with
  | still => exact .refl
  | setopt port =>
    have other : SameText s { s with port := port } := ⟨rfl, rfl⟩
    exact other.trans .setopt
  | addHeader eq =>
    refine SameText.trans ?_ .setopt
    subst eq
    unfold State.slistAppend
    split
    · split <;> exact ⟨rfl, rfl⟩
    · exact ⟨rfl, rfl⟩
  | clear => exact ⟨rfl, rfl⟩
  | callback => exact ⟨rfl, rfl⟩

theorem perform_text (text : u.flag = .rPost ∨ u.flag = .rGet) (anew : u.responsStr = [])
    (h : u.perform tr = some r) :
    let chunks := if u.pCurl.isSome then chunksOf tr.events else []
    r.2.responsStr = chunks.flatMap Chunk.data ∧
      r.2.reports = chunks.map fun c => (c.nSize * c.nMemByte, c.nSize * c.nMemByte) := by
  unfold State.perform at h
  cases hc : u.pCurl with
  | none =>
    rw [State.options, hc] at h
    cases h
    exact ⟨anew, rfl⟩
  | some handle =>
    rw [State.options, hc] at h
    obtain ⟨r', hd, rfl⟩ := Option.map_eq_some_iff.mp h
    obtain ⟨-, responsStr, reports⟩ := deliver_text (s := u.start (curl.options handle)) text hd
    exact ⟨responsStr.trans (congrArg (· ++ _) anew), reports⟩

theorem perform_download (download : u.flag = .rDownload) (h : u.perform tr = some r) :
    r.2.responsStr = u.responsStr := by
  unfold State.perform at h
  cases ho : u.options with
  | none => rw [ho] at h; cases h; rfl
  | some o =>
    rw [ho] at h
    obtain ⟨r', hd, rfl⟩ := Option.map_eq_some_iff.mp h
    have same : r'.2.responsStr = u.responsStr := deliver_download (s := u.start o) download hd
    exact same

structure Answers (easy : Bool) (c : Call) (s t : State curl) : Prop where
  handle : t.pCurl.isSome = easy
  responsStr : t.responsStr =
    ((c.delivered easy).map fun chunks => chunks.flatMap Chunk.data).getD s.responsStr
  reports : ∀ chunks, c.delivered easy = some chunks →
    t.reports = chunks.map fun c => (c.nSize * c.nMemByte, c.nSize * c.nMemByte)

variable {easy : Bool}

theorem Answers.silent (none : c.delivered easy = none) (handle : s.pCurl.isSome = easy)
    (same : SameText s t) : Answers easy c s t where
  handle := same.handle.trans handle
  responsStr := by rw [none]; exact same.responsStr
  reports := by rw [none]; exact nofun

theorem Answers.perform (handle : s.pCurl.isSome = easy)
    (prepared : u.pCurl.isSome = s.pCurl.isSome) (text : u.flag = .rPost ∨ u.flag = .rGet)
    (anew : u.responsStr = []) (h : u.perform tr = some r)
    (chunks : c.delivered easy = some (if easy then chunksOf tr.events else [])) :
    Answers easy c s r.2 := by
  obtain ⟨responsStr, reports⟩ := perform_text text anew h
  rw [prepared, handle] at responsStr reports
  refine ⟨?_, ?_, ?_⟩
  · rw [(State.perform_performs h).pCurl, prepared, handle]
  · rw [chunks]
    exact responsStr
  · rw [chunks]
    rintro _ ⟨⟩
    exact reports

theorem answers_of_step (handle : s.pCurl.isSome = easy) (hs : step s c = some t) :
    Answers easy c s t := by
  have put (s : State curl) (setting : Setting) :
      (s.put setting).pCurl.isSome = s.pCurl.isSome := Option.isSome_map
  have yes (live : s.pCurl ≠ none) : easy = true := handle ▸ Option.isSome_iff_ne_none.mpr live
  cases c with
  | downloadFile lpUrl lpFile opened tr =>
    obtain ⟨r, hr, rfl⟩ := Option.map_eq_some_iff.mp hs
    obtain ⟨url, -, -, -, -, hp⟩ | ⟨url, rfl⟩ | rfl := State.downloadFile_cases hr
    · refine .silent rfl handle ⟨?_, perform_download (u := s.toDownload url) rfl hp⟩
      rw [(State.perform_performs hp).pCurl]
      exact (put _ _).trans (put s (.url url))
    · exact .silent rfl handle ⟨put s _, rfl⟩
    · exact .silent rfl handle .refl
  | post lpUrl lpData tr =>
    obtain ⟨r, hr, rfl⟩ := Option.map_eq_some_iff.mp hs
    obtain ⟨url, data, rfl, rfl, live, hp⟩ | ⟨refused, rfl⟩ := State.checkPost_cases hr
    · refine .perform handle ?_ (.inl rfl) rfl hp (by rw [yes live]; rfl)
      exact (put _ _).trans ((put _ _).trans (put s .post))
    · refine .silent ?_ handle .refl
      obtain dead | rfl | rfl := refused
      · rw [← handle, dead]
        cases lpUrl <;> cases lpData <;> rfl
      · rfl
      · cases lpUrl <;> rfl
  | postBinary lpUrl lpData nSize tr =>
    obtain ⟨r, hr, rfl⟩ := Option.map_eq_some_iff.mp hs
    obtain ⟨url, data, rfl, rfl, live, hp⟩ | ⟨refused, rfl⟩ := State.checkPost_cases hr
    · refine .perform handle ?_ (.inl rfl) rfl hp (by rw [yes live]; rfl)
      exact (put _ _).trans ((put _ _).trans ((put _ _).trans (put s .post)))
    · refine .silent ?_ handle .refl
      obtain dead | rfl | rfl := refused
      · rw [← handle, dead]
        cases lpUrl <;> cases lpData <;> rfl
      · rfl
      · cases lpUrl <;> rfl
  | get lpUrl tr =>
    obtain ⟨r, hr, rfl⟩ := Option.map_eq_some_iff.mp hs
    obtain ⟨url, rfl, hp⟩ | ⟨rfl, rfl⟩ := State.get_cases hr
    · refine .perform handle ?_ (.inr rfl) rfl hp rfl
      exact (put _ _).trans ((put _ _).trans ((put _ _).trans ((put _ _).trans (put s .httpGet))))
    · exact .silent rfl handle .refl
  | _ => exact .silent rfl handle (sameText_of_sets (State.sets_of_step rfl hs))

theorem step_defined (performs : c.sets = false) (ok : s.callback = true ∨ c.Quiet) :
    ∃ t, step s c = some t ∧ t.callback = s.callback := by
  have of_perform {r : Option (Bool × State curl)}
      (h : ∃ b, r = some b ∧ b.2.callback = s.callback) :
      ∃ t, r.map Prod.snd = some t ∧ t.callback = s.callback := by
    obtain ⟨b, rfl, callback⟩ := h
    exact ⟨b.2, rfl, callback⟩
  cases c with
  | downloadFile lpUrl lpFile opened tr =>
    simp only [step, State.downloadFile]
    split
    · split
      · exact of_perform (perform_defined (s := s.toDownload _) ok)
      · exact ⟨_, rfl, rfl⟩
    · exact ⟨_, rfl, rfl⟩
  | post lpUrl lpData tr =>
    simp only [step, State.post, State.checkPost]
    split
    · exact of_perform (perform_defined (s := s.toPost _ _) ok)
    · exact ⟨_, rfl, rfl⟩
  | postBinary lpUrl lpData nSize tr =>
    simp only [step, State.postBinary, State.checkPost]
    split
    · exact of_perform (perform_defined (s := s.toPostBinary _ _ nSize) ok)
    · exact ⟨_, rfl, rfl⟩
  | get lpUrl tr =>
    cases lpUrl with
    | none => exact ⟨_, rfl, rfl⟩
    | some url => exact of_perform (perform_defined (s := s.toGet url) ok)
  | _ => cases performs

variable {calls : List Call}

theorem run_defined (ok : ∀ c ∈ calls, c.sets = false ∧ (s.callback = true ∨ c.Quiet)) :
    ∃ t, run step s calls = some t := by
  induction calls generalizing s with
  | nil => exact ⟨s, rfl⟩
  | cons c calls ih =>
    obtain ⟨⟨performs, quiet⟩, tail⟩ := List.forall_mem_cons.mp ok
    obtain ⟨u, hs, callback⟩ := step_defined performs quiet
    obtain ⟨t, ht⟩ := ih (s := u) (callback ▸ tail)
    exact ⟨t, by rw [run_cons, hs]; exact ht⟩

/-- `GetRespons` answers what the last `Get` or `Post` that was performed has been delivered, all of
which it has reported as consumed. Transfers go to their end if libcurl reports no progress, which
a download asks for, or once a callback is set. -/
theorem getRespons_last (handle : Option curl.Handle) (files : Bytes → Option Bytes)
    (calls : List Call) :
    ((∀ c ∈ calls, c.sets = false ∧ c.Quiet) →
      ∃ s, run step (State.init handle files) calls = some s) ∧
    ((∀ c ∈ calls, c.sets = false) →
      ∃ s, run step (State.init handle files) (.setCallback true :: calls) = some s) ∧
    ∀ s, run step (State.init handle files) calls = some s →
      s.responsStr = ((last (Call.delivered handle.isSome) calls).getD []).flatMap Chunk.data ∧
      ∀ c t chunks, step s c = some t → c.delivered handle.isSome = some chunks →
        t.reports = chunks.map fun c => (c.nSize * c.nMemByte, c.nSize * c.nMemByte) := by
  refine ⟨fun ok => run_defined fun c hc => (ok c hc).imp_right .inr, fun ok => ?_, fun s h => ?_⟩
  · have given : ∃ s, run step ((State.init handle files).setCallback true) calls = some s :=
      run_defined fun c hc => ⟨ok c hc, .inl rfl⟩
    rw [run_cons]
    exact given
  have kept : s.pCurl.isSome = handle.isSome :=
    (reach_of_run h).invariant (I := fun s => s.pCurl.isSome = handle.isSome) rfl
      fun s c t _ kept _ hs => (answers_of_step kept hs).handle
  refine ⟨?_, fun c t chunks hs => (answers_of_step kept hs).reports chunks⟩
  have held := last_of_run (I := fun s => s.pCurl.isSome = handle.isSome)
    (f := fun c => (c.delivered handle.isSome).map fun chunks => chunks.flatMap Chunk.data)
    (g := fun s : State curl => some s.responsStr)
    (fun s c t kept hs => (answers_of_step kept hs).handle)
    (fun s c t kept hs => by rw [(answers_of_step kept hs).responsStr, Option.or_some]) rfl h
  rw [last_map, Option.or_some] at held
  rw [Option.some.inj held]
  cases last (Call.delivered handle.isSome) calls with
  | none => rfl
  | some chunks => rfl

theorem getRespons_last_of_two : ∃ s : State Curl.plain, s.responsStr = [97, 98, 99] ∧
    ∀ c t chunks, step s c = some t → c.delivered true = some chunks →
      t.reports = chunks.map fun c => (c.nSize * c.nMemByte, c.nSize * c.nMemByte) := by
  obtain ⟨s, hs⟩ : ∃ s : State Curl.plain,
    run step (State.init (some Curl.plain.init) fun _ => none)
      [.get (some [117]) ⟨[.chunk ⟨1, 2, [97, 98], rfl⟩ 0, .chunk ⟨1, 1, [99], rfl⟩ 0], .ok⟩,
        .downloadFile (some [117]) (some [102]) true ⟨[.chunk ⟨1, 1, [100], rfl⟩ 1], .ok⟩,
        .post none (some [0]) ⟨[], .ok⟩] = some s := ⟨_, rfl⟩
  exact ⟨s, (getRespons_last _ _ _).2.2 s hs⟩

end Leano.HttpRequests
