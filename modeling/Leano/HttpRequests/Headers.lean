import Leano.HttpRequests.Defs
import Leano.Lib.Watch
import Mathlib.Data.List.TakeWhile

namespace Leano.HttpRequests

open Leano.Lib

variable {curl : Curl}

def State.headers (s : State curl) : List Bytes := s.headerlist.elim [] s.strings

abbrev Headed (curl : Curl) := Watched (State curl) (List Bytes)

def seeHeader (added : List Bytes) (s : State curl) : Call → List Bytes
  | .addHeader lpKey lpValue appended rc =>
    if (s.addHeader lpKey lpValue appended rc).1 then added ++ [headerLine lpKey lpValue]
    else added
  | .clearHeaderList => []
  | _ => added

def Headed.init (files : Bytes → Option Bytes) : Headed curl :=
  ⟨.init (some curl.init) files, []⟩

structure Installed (v : Headed curl) : Prop where
  handle : v.state.options.map Options.httpHeader = some v.state.headerlist
  live : ∀ k, v.state.headerlist = some k → v.state.lists.Live k
  headers : v.state.headers = v.seen

def FailsClean (s t : State curl) : Call → Prop
  | .addHeader lpKey lpValue appended rc =>
    lpKey.length ≠ 0 → lpValue.length ≠ 0 → appended = false →
      (s.addHeader lpKey lpValue appended rc).1 = false ∧ t.headers = s.headers
  | _ => True

/-- `AddHeader` appends a string without NUL and libcurl takes the list, or neither, while the list
is null; and `ClearHeaderList` has nothing to free. -/
def HeaderOk (s : State curl) : Call → Prop
  | .addHeader lpKey lpValue appended rc =>
    lpKey.length = 0 ∨ lpValue.length = 0 ∨
      (appended = true ∧ rc = .ok ∧ 0 ∉ lpKey ∧ 0 ∉ lpValue) ∨
      (appended = false ∧ rc ≠ .ok ∧ s.headerlist = none)
  | .clearHeaderList => s.headerlist = none
  | _ => True

instance (s : State curl) : (c : Call) → Decidable (HeaderOk s c)
  | .addHeader _ _ _ _ => inferInstanceAs (Decidable (_ ∨ _))
  | .clearHeaderList => inferInstanceAs (Decidable (_ = _))
  | .setPort _ _ => isTrue trivial
  | .setExecutTimeout _ _ => isTrue trivial
  | .setConnectTimeout _ _ => isTrue trivial
  | .setUserAgent _ _ => isTrue trivial
  | .setResumeFrom _ _ => isTrue trivial
  | .setCookie _ _ => isTrue trivial
  | .setCallback _ => isTrue trivial
  | .downloadFile _ _ _ _ => isTrue trivial
  | .post _ _ _ => isTrue trivial
  | .postBinary _ _ _ _ => isTrue trivial
  | .get _ _ => isTrue trivial

variable {v v' : Headed curl} {s t : State curl} {c : Call}

structure SameHeaders (s t : State curl) : Prop where
  handle : t.options.map Options.httpHeader = s.options.map Options.httpHeader
  headerlist : t.headerlist = s.headerlist
  lists : t.lists = s.lists
  strings : t.strings = s.strings

namespace SameHeaders

theorem refl : SameHeaders s s := ⟨rfl, rfl, rfl, rfl⟩

theorem setopt {setting : Setting} {rc : CurlCode}
    (other : ∀ o : Options, (o.set setting).httpHeader = o.httpHeader) :
    SameHeaders s (s.setopt setting rc).2 := by
  refine ⟨?_, ?_, ?_, ?_⟩
  · rw [State.options_setopt, Option.map_map]
    congr 1
    funext o
    change (if rc = .ok then o.set setting else o).httpHeader = _
    split
    · exact other o
    · rfl
  all_goals unfold State.setopt; split <;> rfl

theorem trans {u : State curl} (h : SameHeaders s u) (h' : SameHeaders u t) : SameHeaders s t where
  handle := h'.handle.trans h.handle
  headerlist := h'.headerlist.trans h.headerlist
  lists := h'.lists.trans h.lists
  strings := h'.strings.trans h.strings

theorem sets (hs : State.Sets s c t) (add : ∀ k w a rc, c ≠ .addHeader k w a rc)
    (clear : c ≠ .clearHeaderList) : SameHeaders s t := by
  cases hs with
  | still => exact refl
  | @setopt _ setting port rc plain =>
    have other : SameHeaders s { s with port := port } := ⟨rfl, rfl, rfl, rfl⟩
    refine other.trans (setopt ?_)
    cases setting with
    | port | timeout | connectTimeout | userAgent | cookie | resumeFrom => exact fun _ => rfl
    | _ => cases plain
  | addHeader => exact absurd rfl (add _ _ _ _)
  | clear => exact absurd rfl clear
  | callback => exact ⟨rfl, rfl, rfl, rfl⟩

theorem perform {u : State curl} {r : Bool × State curl} {tr : Transfer} (h : u.perform tr = some r)
    (same : SameHeaders s u) : SameHeaders s r.2 := by
  have performs := State.perform_performs h
  exact same.trans ⟨by rw [performs.options], performs.headerlist, performs.lists,
    performs.strings⟩

end SameHeaders

theorem sameHeaders_of_step (hs : step s c = some t) (add : ∀ k w a rc, c ≠ .addHeader k w a rc)
    (clear : c ≠ .clearHeaderList) : SameHeaders s t := by
  cases c with
  | downloadFile =>
    obtain ⟨r, hr, rfl⟩ := Option.map_eq_some_iff.mp hs
    obtain ⟨url, -, -, -, -, hp⟩ | ⟨url, rfl⟩ | rfl := State.downloadFile_cases hr
    · refine .perform hp ⟨?_, rfl, rfl, rfl⟩
      rw [State.options_toDownload, Option.map_map]
      rfl
    · refine ⟨?_, rfl, rfl, rfl⟩
      change (s.put (.url url)).options.map _ = _
      rw [State.options_put, Option.map_map]
      rfl
    · exact .refl
  | post =>
    obtain ⟨r, hr, rfl⟩ := Option.map_eq_some_iff.mp hs
    obtain ⟨url, data, -, -, -, hp⟩ | ⟨-, rfl⟩ := State.checkPost_cases hr
    · refine .perform hp ⟨?_, rfl, rfl, rfl⟩
      rw [State.options_toPost, Option.map_map]
      rfl
    · exact .refl
  | postBinary =>
    obtain ⟨r, hr, rfl⟩ := Option.map_eq_some_iff.mp hs
    obtain ⟨url, data, -, -, -, hp⟩ | ⟨-, rfl⟩ := State.checkPost_cases hr
    · refine .perform hp ⟨?_, rfl, rfl, rfl⟩
      rw [State.options_toPostBinary, Option.map_map]
      rfl
    · exact .refl
  | get =>
    obtain ⟨r, hr, rfl⟩ := Option.map_eq_some_iff.mp hs
    obtain ⟨url, -, hp⟩ | ⟨-, rfl⟩ := State.get_cases hr
    · refine .perform hp ⟨?_, rfl, rfl, rfl⟩
      rw [State.options_toGet, Option.map_map]
      rfl
    · exact .refl
  | _ => exact .sets (State.sets_of_step rfl hs) add clear

theorem headers_of_some {k : Nat} (h : s.headerlist = some k) : s.headers = s.strings k := by
  rw [State.headers, h]
  rfl

theorem headers_of_none (h : s.headerlist = none) : s.headers = [] := by
  rw [State.headers, h]
  rfl

structure Appended (s t : State curl) (line : Bytes) : Prop where
  options : t.options = s.options
  list : ∃ k, t.headerlist = some k ∧ t.lists.Live k
  headers : t.headers = s.headers ++ [line]

theorem slistAppend_appended (line : Bytes) (live : ∀ k, s.headerlist = some k → s.lists.Live k) :
    Appended s (s.slistAppend line true) line := by
  cases hl : s.headerlist with
  | none =>
    simp only [State.slistAppend, if_true, hl]
    refine ⟨rfl, ⟨_, rfl, Heap.live_make⟩, ?_⟩
    rw [headers_of_none hl, headers_of_some (k := s.lists.made) rfl]
    exact Function.update_self ..
  | some k =>
    simp only [State.slistAppend, if_true, hl]
    refine ⟨rfl, ⟨k, rfl, live k hl⟩, ?_⟩
    rw [headers_of_some (k := k) rfl, headers_of_some hl]
    exact Function.update_self ..

theorem addHeader_eq {lpKey lpValue : Bytes} {appended : Bool} {rc : CurlCode}
    (key : lpKey.length ≠ 0) (value : lpValue.length ≠ 0) :
    s.addHeader lpKey lpValue appended rc =
      (s.slistAppend (beforeNul (headerLine lpKey lpValue)) appended).setopt
        (.httpHeader (s.slistAppend (beforeNul (headerLine lpKey lpValue)) appended).headerlist)
        rc :=
  if_neg (not_or.mpr ⟨key, value⟩)

theorem beforeNul_headerLine {lpKey lpValue : Bytes} :
    beforeNul (headerLine lpKey lpValue) = headerLine lpKey lpValue ↔
      0 ∉ lpKey ∧ 0 ∉ lpValue := by
  rw [beforeNul, List.takeWhile_eq_self_iff]
  constructor
  · intro all
    refine ⟨fun key => ?_, fun value => ?_⟩
    · exact absurd (all 0 (by simp [headerLine, key])) (by decide)
    · exact absurd (all 0 (by simp [headerLine, value])) (by decide)
  · rintro ⟨key, value⟩ b hb
    simp only [headerLine, List.mem_append, List.mem_cons, List.not_mem_nil, or_false] at hb
    refine decide_eq_true ?_
    rintro rfl
    obtain (hk | h58 | h32) | hv := hb
    · exact key hk
    · cases h58
    · cases h32
    · exact value hv

theorem setopt_header {list : Option Nat} {rc : CurlCode} {r : Bool × State curl}
    (live : s.pCurl ≠ none) (hr : r = s.setopt (.httpHeader list) rc) :
    r.1 = decide (rc = .ok) ∧ r.2.headerlist = s.headerlist ∧ r.2.lists = s.lists ∧
      r.2.headers = s.headers ∧
      r.2.options.map Options.httpHeader =
        if rc = .ok then some list else s.options.map Options.httpHeader := by
  obtain ⟨handle, hh⟩ := Option.ne_none_iff_exists'.mp live
  have options := State.options_setopt (s := s) (.httpHeader list) rc
  rw [← hr] at options
  unfold State.setopt at hr
  rw [hh] at hr
  subst hr
  refine ⟨rfl, rfl, rfl, rfl, ?_⟩
  rw [options, State.options, hh]
  by_cases ok : rc = .ok <;> simp [ok, Options.set]

theorem Installed.pCurl (h : Installed v) : v.state.pCurl ≠ none := by
  intro dead
  have handle := h.handle
  rw [State.options, dead] at handle
  cases handle

/-- `AddHeader` when the line is appended: all is well exactly if libcurl takes the list and the
line is whole. -/
theorem Installed.appended {line' : Bytes} {rc : CurlCode} {r : Bool × State curl}
    (h : Installed v) (line : Bytes) (grown : Appended v.state s line')
    (hr : r = s.setopt (.httpHeader s.headerlist) rc) :
    Installed ⟨r.2, if r.1 then v.seen ++ [line] else v.seen⟩ ↔ rc = .ok ∧ line' = line := by
  obtain ⟨options, ⟨k, hk, hlive⟩, grown⟩ := grown
  have live : s.pCurl ≠ none := by
    intro dead
    obtain ⟨o, ho, -⟩ := Option.map_eq_some_iff.mp h.handle
    rw [State.options, dead] at options
    cases options.trans ho
  obtain ⟨answer, headerlist, lists, headers, handle⟩ := setopt_header live hr
  rw [h.headers] at grown
  constructor
  · rintro ⟨-, -, now⟩
    rw [headers, grown, answer] at now
    by_cases ok : rc = .ok
    · rw [if_pos (decide_eq_true ok)] at now
      exact ⟨ok, List.singleton_inj.mp (List.append_cancel_left now)⟩
    · rw [if_neg (by simpa using ok)] at now
      exact absurd now (by simp)
  · rintro ⟨rfl, rfl⟩
    refine ⟨?_, ?_, ?_⟩
    · rw [handle, if_pos rfl, headerlist]
    · intro j hj
      rw [headerlist, hk] at hj
      cases hj
      rw [lists]
      exact hlive
    · rw [headers, grown, answer]
      rfl

theorem Installed.lost {rc : CurlCode} {r : Bool × State curl} (h : Installed v) (line : Bytes)
    (hr : r = { v.state with headerlist := none }.setopt (.httpHeader none) rc) :
    Installed ⟨r.2, if r.1 then v.seen ++ [line] else v.seen⟩ ∧
        (r.1 = false ∧ r.2.headers = v.state.headers) ↔
      rc ≠ .ok ∧ v.state.headerlist = none := by
  obtain ⟨answer, headerlist, lists, headers, handle⟩ :=
    setopt_header (s := { v.state with headerlist := none }) h.pCurl hr
  have empty : ({ v.state with headerlist := none } : State curl).headers = [] :=
    headers_of_none rfl
  constructor
  · rintro ⟨now, refused, -⟩
    have no : rc ≠ .ok := by simpa [answer] using refused
    refine ⟨no, ?_⟩
    have installed := now.handle
    rw [handle, if_neg no, headerlist] at installed
    exact Option.some.inj (h.handle.symm.trans installed)
  · rintro ⟨no, null⟩
    have refused : decide (rc = .ok) = false := decide_eq_false no
    have before := headers_of_none null
    refine ⟨⟨?_, ?_, ?_⟩, ?_, ?_⟩
    · rw [handle, if_neg no, headerlist]
      exact h.handle.trans (congrArg some null)
    · rw [headerlist]
      exact nofun
    · rw [headers, answer, refused, empty, ← before]
      exact h.headers
    · rw [answer, refused]
    · rw [headers, empty, before]

theorem Installed.addHeader {lpKey lpValue : Bytes} {appended : Bool} {rc : CurlCode}
    (h : Installed v)
    (hs : watch step seeHeader v (.addHeader lpKey lpValue appended rc) = some v') :
    Installed v' ∧ FailsClean v.state v'.state (.addHeader lpKey lpValue appended rc) ↔
      HeaderOk v.state (.addHeader lpKey lpValue appended rc) := by
  obtain ⟨t, ht, rfl⟩ := eq_of_watch hs
  cases ht
  by_cases given : lpKey.length = 0 ∨ lpValue.length = 0
  · have refused : v.state.addHeader lpKey lpValue appended rc = (false, v.state) := if_pos given
    have ok : HeaderOk v.state (.addHeader lpKey lpValue appended rc) := by
      rcases given with key | value
      · exact .inl key
      · exact .inr (.inl value)
    refine iff_of_true ⟨?_, ?_⟩ ok
    · rw [seeHeader, refused]
      exact h
    · intro key value
      exact (given.elim key value).elim
  · obtain ⟨key, value⟩ := not_or.mp given
    simp only [HeaderOk, key, value, false_or]
    cases appended with
    | true =>
      have grown := slistAppend_appended (beforeNul (headerLine lpKey lpValue)) h.live
      have eq : v.state.addHeader lpKey lpValue true rc = _ := addHeader_eq key value
      have step := h.appended (headerLine lpKey lpValue) grown eq
      rw [beforeNul_headerLine] at step
      rw [seeHeader, step]
      simp [FailsClean]
    | false =>
      have eq : v.state.addHeader lpKey lpValue false rc = _ := addHeader_eq key value
      have step := h.lost (headerLine lpKey lpValue) eq
      simpa [FailsClean, seeHeader, key, value] using step

theorem installed_step (h : Installed v) (hs : watch step seeHeader v c = some v') :
    Installed v' ∧ FailsClean v.state v'.state c ↔ HeaderOk v.state c := by
  by_cases add : ∃ k w a rc, c = .addHeader k w a rc
  · obtain ⟨k, w, a, rc, rfl⟩ := add
    exact h.addHeader hs
  obtain ⟨t, ht, rfl⟩ := eq_of_watch hs
  by_cases clear : c = .clearHeaderList
  · subst clear
    refine (and_iff_left trivial).trans ?_
    cases null : v.state.headerlist with
    | none =>
      have same : t = v.state := by
        simp only [step, State.clearHeaderList, null] at ht
        exact (Option.some.inj ht).symm
      subst same
      refine iff_of_true ⟨h.handle, h.live, headers_of_none null⟩ null
    | some k =>
      refine iff_of_false ?_ (by rw [HeaderOk, null]; exact Option.some_ne_none k)
      intro now
      simp only [step, State.clearHeaderList, null] at ht
      obtain ⟨lists, -, rfl⟩ := Option.map_eq_some_iff.mp ht
      cases (h.handle.symm.trans now.handle).symm.trans (congrArg some null)
  · have same := sameHeaders_of_step ht (fun k w a rc eq => add ⟨k, w, a, rc, eq⟩) clear
    have unseen : seeHeader v.seen v.state c = v.seen := by
      cases c with
      | addHeader => exact absurd ⟨_, _, _, _, rfl⟩ add
      | clearHeaderList => exact absurd rfl clear
      | _ => rfl
    have ok : HeaderOk v.state c ∧ FailsClean v.state t c := by
      cases c with
      | addHeader => exact absurd ⟨_, _, _, _, rfl⟩ add
      | clearHeaderList => exact absurd rfl clear
      | _ => exact ⟨trivial, trivial⟩
    refine iff_of_true ⟨?_, ok.2⟩ ok.1
    rw [unseen]
    refine ⟨by rw [same.handle, same.headerlist, h.handle], ?_, ?_⟩
    · rw [same.headerlist, same.lists]
      exact h.live
    · rw [State.headers, same.headerlist, same.strings]
      exact h.headers

variable {files : Bytes → Option Bytes}

theorem installed_init : Installed (Headed.init files : Headed curl) where
  handle := congrArg (fun o => some (Options.httpHeader o)) curl.options_init
  live := nofun
  headers := rfl

/-- While every call is `HeaderOk`, a transfer sends the headers added; and the next call keeps that
exactly if it is `HeaderOk`, too. -/
theorem headers_sent (h : ReachIf (watch step seeHeader) (fun v c => HeaderOk v.state c)
    (Headed.init files : Headed curl) v) :
    Installed v ∧ ∀ c v', watch step seeHeader v c = some v' →
      (Installed v' ∧ FailsClean v.state v'.state c ↔ HeaderOk v.state c) := by
  have now : Installed v := by
    refine h.invariant installed_init ?_
    exact fun _ _ _ _ ih ok hs => ((installed_step ih hs).mpr ok).1
  exact ⟨now, fun c v' hs => installed_step now hs⟩

theorem headers_sent_of_two : ∃ v : Headed Curl.plain,
    v.seen = [[97, 58, 32, 98], [99, 58, 32, 100]] ∧
    Installed v ∧ ∀ c v', watch step seeHeader v c = some v' →
      (Installed v' ∧ FailsClean v.state v'.state c ↔ HeaderOk v.state c) := by
  obtain ⟨v, hv, hp⟩ := exists_reachIf (watch step seeHeader) (fun v c => HeaderOk v.state c)
    (Headed.init fun _ => none : Headed Curl.plain)
    [.addHeader [97] [98] true .ok, .addHeader [99] [100] true .ok]
    (fun v => decide (v.seen = [[97, 58, 32, 98], [99, 58, 32, 100]])) (by decide)
  exact ⟨v, of_decide_eq_true hp, headers_sent hv⟩

/-- `ClearHeaderList` leaves the freed list in the handle. -/
theorem freed_list_installed : ¬ ∀ v : Headed Curl.plain,
    Reach (watch step seeHeader) (Headed.init fun _ => none) v → Installed v := by
  intro all
  obtain ⟨v, hv, hp⟩ := exists_reach (watch step seeHeader)
    (Headed.init fun _ => none : Headed Curl.plain)
    [.addHeader [97] [98] true .ok, .clearHeaderList]
    (fun v => decide (v.state.headerlist = none ∧
      v.state.options.map Options.httpHeader = some (some 0))) (by decide)
  obtain ⟨null, dangling⟩ := of_decide_eq_true hp
  have handle := (all v hv).handle
  rw [dangling, null] at handle
  cases handle

/-- And a failed append makes `AddHeader` answer true. -/
example : (((State.init (some Curl.plain.init) fun _ => none).addHeader [97] [98] false .ok).1) =
    true := by decide

end Leano.HttpRequests
