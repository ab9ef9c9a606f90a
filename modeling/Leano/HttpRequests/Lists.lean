import Leano.HttpRequests.Headers

namespace Leano.HttpRequests

open Leano.Lib

variable {curl : Curl}

def State.destructor (s : State curl) : Option (State curl) := s.clearHeaderList

namespace Call

def listAfter (there : Bool) : Call → Bool
  | .addHeader lpKey lpValue appended _ =>
    if lpKey.length = 0 ∨ lpValue.length = 0 then there else appended
  | .clearHeaderList => false
  | _ => there

def drops (there : Bool) : Call → Bool
  | .addHeader lpKey lpValue appended _ =>
    if lpKey.length = 0 ∨ lpValue.length = 0 then false else !appended && there
  | _ => false

end Call

def dropped : Bool → List Call → Nat
  | _, [] => 0
  | there, c :: calls => (c.drops there).toNat + dropped (c.listAfter there) calls

structure Owns (s : State curl) (there : Bool) (lost : Nat) : Prop where
  held : s.headerlist.isSome = there
  live : ∀ k, s.headerlist = some k → s.lists.Live k
  count : s.lists.made = s.lists.freed.length + there.toNat + lost

variable {s t : State curl} {c : Call} {there : Bool} {lost : Nat}

namespace Owns

theorem same (h : Owns s there lost) (same : SameHeaders s t) : Owns t there lost where
  held := same.headerlist ▸ h.held
  live := by
    rw [same.headerlist, same.lists]
    exact h.live
  count := by
    rw [same.lists]
    exact h.count

theorem setopt (h : Owns s there lost) {setting : Setting} {rc : CurlCode} :
    Owns (s.setopt setting rc).2 there lost := by
  unfold State.setopt
  cases s.pCurl <;> exact ⟨h.held, h.live, h.count⟩

theorem slistAppend (h : Owns s there lost) (line : Bytes) (appended : Bool) :
    Owns (s.slistAppend line appended) appended (lost + (!appended && there).toNat) := by
  have ⟨held, live, count⟩ := h
  cases appended with
  | true =>
    cases hl : s.headerlist with
    | none =>
      rw [hl] at held
      subst held
      simp only [State.slistAppend, hl, if_true]
      refine ⟨rfl, ?_, ?_⟩
      · rintro k ⟨⟩
        exact Heap.live_make
      · change s.lists.made + 1 = s.lists.freed.length + 1 + (lost + 0)
        rw [count]
        simp
        omega
    | some k =>
      rw [hl] at held
      subst held
      simp only [State.slistAppend, hl, if_true]
      exact ⟨rfl, fun j hj => live j (hl.trans hj), count⟩
  | false =>
    simp only [State.slistAppend, Bool.false_eq_true, if_false]
    refine ⟨rfl, fun k hk => (by cases hk), ?_⟩
    simp only [Bool.toNat_false, Bool.not_false, Bool.true_and]
    omega

theorem addHeader (h : Owns s there lost) {lpKey lpValue : Bytes} {appended : Bool}
    {rc : CurlCode} :
    let c : Call := .addHeader lpKey lpValue appended rc
    Owns (s.addHeader lpKey lpValue appended rc).2 (c.listAfter there)
      (lost + (c.drops there).toNat) := by
  simp only [State.addHeader, Call.listAfter, Call.drops]
  split
  · exact h
  · exact (h.slistAppend _ appended).setopt

theorem exists_clear (h : Owns s there lost) :
    ∃ t, s.clearHeaderList = some t ∧ Owns t false lost := by
  unfold State.clearHeaderList
  cases hl : s.headerlist with
  | none =>
    have none : there = false := by rw [← h.held, hl]; rfl
    exact ⟨s, rfl, none ▸ h⟩
  | some k =>
    have some : there = true := by rw [← h.held, hl]; rfl
    obtain ⟨lists, free, made, freed⟩ := Heap.free_of_live (h.live k hl)
    refine ⟨_, Option.map_eq_some_iff.mpr ⟨lists, free, rfl⟩, rfl, fun j hj => (by cases hj), ?_⟩
    have count := h.count
    rw [some] at count
    change lists.made = lists.freed.length + 0 + lost
    rw [made, freed, count, List.length_cons]
    rfl

theorem step (h : Owns s there lost) (hs : step s c = some t) :
    Owns t (c.listAfter there) (lost + (c.drops there).toNat) := by
  cases c with
  | addHeader =>
    cases hs
    exact h.addHeader
  | clearHeaderList =>
    obtain ⟨u, hu, owns⟩ := h.exists_clear
    cases hu.symm.trans hs
    exact owns
  | _ => exact h.same (sameHeaders_of_step hs (fun _ _ _ _ => by simp) (by simp))

theorem run {calls : List Call} (h : Owns s there lost)
    (hr : Lib.run HttpRequests.step s calls = some t) :
    ∃ there', Owns t there' (lost + dropped there calls) := by
  induction calls generalizing s there lost with
  | nil =>
    cases hr
    exact ⟨there, h⟩
  | cons c calls ih =>
    obtain ⟨u, hu, hr⟩ := Option.bind_eq_some_iff.mp (run_cons ▸ hr)
    obtain ⟨there', owns⟩ := ih (h.step hu) hr
    exact ⟨there', by rwa [dropped, ← Nat.add_assoc]⟩

end Owns

/-- Whatever is called, `ClearHeaderList` and the destructor free a list that is there, and when the
object is gone as many lists are left as `AddHeader` has dropped. -/
theorem lists_freed {handle : Option curl.Handle} {files : Bytes → Option Bytes}
    {calls : List Call} (h : run step (State.init handle files) calls = some s) :
    ∃ t, s.destructor = some t ∧ t.lists.made = t.lists.freed.length + dropped false calls ∧
      (t.lists.Clean ↔ dropped false calls = 0) := by
  have fresh : Owns (State.init handle files) false 0 :=
    ⟨rfl, fun k hk => (by cases hk), rfl⟩
  obtain ⟨there, owns⟩ := fresh.run h
  obtain ⟨t, ht, gone⟩ := owns.exists_clear
  have count : t.lists.made = t.lists.freed.length + dropped false calls := by
    simpa using gone.count
  refine ⟨t, ht, count, ?_⟩
  rw [Heap.clean_iff, count]
  omega

def lists : List Call :=
  [.addHeader [97] [98] true .ok, .addHeader [97] [99] true .ok, .clearHeaderList,
    .addHeader [97] [98] true .ok, .addHeader [97] [99] false .ok, .addHeader [97] [98] true .ok]

theorem lists_freed_of_three : ∃ s t : State Curl.plain,
    (s.lists.freed = [0] ∧ t.lists.freed = [2, 0]) ∧ s.destructor = some t ∧
      t.lists.made = t.lists.freed.length + dropped false lists ∧
      (t.lists.Clean ↔ dropped false lists = 0) := by
  obtain ⟨s, hs, freed, later⟩ : ∃ s : State Curl.plain,
      run step (State.init (some Curl.plain.init) fun _ => none) lists = some s ∧
      s.lists.freed = [0] ∧ s.destructor.map (fun t => t.lists.freed) = some [2, 0] :=
    ⟨_, rfl, rfl, rfl⟩
  obtain ⟨t, ht, count, clean⟩ := lists_freed hs
  rw [ht] at later
  exact ⟨s, t, ⟨freed, Option.some.inj later⟩, ht, count, clean⟩

end Leano.HttpRequests
