import Leano.DBOperation.Defs
import Leano.Lib.Run

namespace Leano.DBOperation

open Leano.Lib

/-- `createStatement` succeeds in `SetDatabase` only while `state` is null, and `executeQuery`
returns only while `res` is null. -/
def Keeps (s : State) : Call → Prop
  | .setDatabase setSchema create => setSchema = true ∧ create = true → s.state = none
  | .executeQuery create answer =>
    s.state ≠ none ∨ create = true → answer ≠ .throws → s.res = none
  | _ => True

instance (s : State) : (c : Call) → Decidable (Keeps s c)
  | .setDatabase _ _ => inferInstanceAs (Decidable (_ → _))
  | .executeQuery _ _ => inferInstanceAs (Decidable (_ → _ → _))
  | .execute _ _ => isTrue trivial
  | .executeUpdate _ _ _ => isTrue trivial
  | .getColumnCount _ _ => isTrue trivial
  | .getColumnName _ _ => isTrue trivial
  | .getNext => isTrue trivial

def Call.manages : Call → Bool
  | .setDatabase _ _ => true
  | .execute _ _ => true
  | .executeQuery _ _ => true
  | .executeUpdate _ _ _ => true
  | _ => false

structure Owned (s : State) (lost : Nat) : Prop where
  state : ∀ k, s.state = some k → s.heap.Live k
  res : ∀ k, s.res = some k → s.heap.Live k
  apart : ∀ k, s.state = some k → s.res ≠ some k
  count : s.heap.made =
    s.heap.freed.length + s.state.toList.length + s.res.toList.length + lost

variable {s t : State} {lost : Nat} {c : Call} {create : Bool}

namespace Owned

theorem newStatement (h : Owned s lost) : Owned s.newStatement (lost + s.state.toList.length) where
  state := by
    rintro k ⟨⟩
    exact Heap.live_make
  res := fun k hk => (h.res k hk).make
  apart := by
    rintro k ⟨⟩ hk
    exact (h.res _ hk).ne_made rfl
  count := by
    have count := h.count
    change s.heap.made + 1 = s.heap.freed.length + 1 + s.res.toList.length + _
    omega

theorem newResult (h : Owned s lost) (columns : List String) :
    Owned (s.newResult columns) (lost + s.res.toList.length) where
  state := fun k hk => (h.state k hk).make
  res := by
    rintro k ⟨⟩
    exact Heap.live_make
  apart := by
    rintro k hk ⟨⟩
    exact (h.state _ hk).ne_made rfl
  count := by
    have count := h.count
    change s.heap.made + 1 = s.heap.freed.length + s.state.toList.length + 1 + _
    omega

theorem null (h : Owned s lost) : Owned { s with res := none } (lost + s.res.toList.length) where
  state := h.state
  res := nofun
  apart := fun _ _ => nofun
  count := by
    have count := h.count
    change s.heap.made = s.heap.freed.length + s.state.toList.length + 0 + _
    omega

theorem caches (h : Owned s lost) (caches : s.Caches t) : Owned t lost := by
  obtain rfl | ⟨-, -, rfl⟩ := caches
  · exact h
  · exact ⟨h.state, h.res, h.apart, h.count⟩

theorem update {heap : Heap} (h : Owned s lost)
    (free : s.heap.make.free s.heap.made = some heap) : Owned { s with heap := heap } lost := by
  obtain ⟨-, made, freed⟩ := Heap.free_cases free
  refine ⟨fun k hk => ?_, fun k hk => ?_, h.apart, ?_⟩
  · exact (h.state k hk).make.free free (h.state k hk).ne_made
  · exact (h.res k hk).make.free free (h.res k hk).ne_made
  · have count := h.count
    change heap.made = heap.freed.length + s.state.toList.length + s.res.toList.length + lost
    rw [made, freed, List.length_cons]
    change s.heap.made + 1 = s.heap.freed.length + 1 + _ + _ + _
    omega

theorem ready (h : Owned s lost) (ready : s.Ready create t) : Owned t lost ∧ t.res = s.res := by
  obtain ⟨-, rfl⟩ | ⟨unset, -, rfl⟩ := ready
  · exact ⟨h, rfl⟩
  · have new := h.newStatement
    rw [unset] at new
    exact ⟨new, rfl⟩

theorem kept (h : Owned t lost) (ok : Keeps s c) :
    Owned t (lost + if Keeps s c then 0 else 1) := by rwa [if_pos ok]

theorem overwritten {p : Option Nat} (h : Owned t (lost + p.toList.length))
    (ok : Keeps s c ↔ p = none) : Owned t (lost + if Keeps s c then 0 else 1) := by
  cases p with
  | none => exact h.kept (ok.mpr rfl)
  | some k => rwa [if_neg fun keeps => Option.some_ne_none k (ok.mp keeps)]

theorem executeQuery {answer : Answer} (h : Owned s lost)
    (hs : step s (.executeQuery create answer) = some t) :
    Owned t (lost + if Keeps s (.executeQuery create answer) then 0 else 1) := by
  obtain ⟨r, hr, rfl⟩ := Option.map_eq_some_iff.mp hs
  obtain ⟨never, rfl⟩ | ⟨reached, t, ready, rfl⟩ := State.executeQuery_cases hr
  · exact h.kept fun reached => absurd reached never
  · obtain ⟨owned, res⟩ := h.ready ready
    cases answer with
    | throws => exact owned.kept fun _ returned => absurd rfl returned
    | null =>
      refine owned.null.overwritten ?_
      rw [res]
      exact ⟨fun keeps => keeps reached nofun, fun unset _ _ => unset⟩
    | result columns =>
      refine (owned.newResult columns).overwritten ?_
      rw [res]
      exact ⟨fun keeps => keeps reached nofun, fun unset _ _ => unset⟩

theorem step (h : Owned s lost) (hs : step s c = some t) :
    Owned t (lost + if Keeps s c then 0 else 1) := by
  cases c with
  | setDatabase schema create =>
    obtain ⟨r, hr, rfl⟩ := Option.map_eq_some_iff.mp hs
    obtain ⟨rfl, rfl, rfl⟩ | ⟨not, rfl⟩ := State.setDatabase_cases hr
    · exact h.newStatement.overwritten ⟨fun keeps => keeps ⟨rfl, rfl⟩, fun unset _ => unset⟩
    · exact h.kept fun both => absurd both not
  | execute create runs =>
    obtain ⟨r, hr, rfl⟩ := Option.map_eq_some_iff.mp hs
    obtain ⟨r', hr', rfl⟩ := Option.map_eq_some_iff.mp hr
    obtain ⟨-, rfl⟩ | ⟨unset, yes, rfl⟩ | ⟨-, -, rfl⟩ := State.ensureStatement_cases hr'
    · exact h.kept trivial
    · exact (h.ready (.inr ⟨unset, yes, rfl⟩)).1.kept trivial
    · exact h.kept trivial
  | executeQuery create answer => exact h.executeQuery hs
  | executeUpdate prepare update commit =>
    obtain ⟨r, hr, rfl⟩ := Option.map_eq_some_iff.mp hs
    obtain rfl | ⟨heap, free, rfl⟩ := State.executeUpdate_cases hr
    · exact h.kept trivial
    · exact (h.update free).kept trivial
  | getColumnCount =>
    obtain ⟨r, hr, rfl⟩ := Option.map_eq_some_iff.mp hs
    exact (h.caches (State.caches_getColumnCount hr)).kept trivial
  | getColumnName =>
    obtain ⟨r, hr, rfl⟩ := Option.map_eq_some_iff.mp hs
    exact (h.caches (State.caches_getColumnName hr)).kept trivial
  | getNext =>
    obtain ⟨res, -, rfl⟩ := Option.map_eq_some_iff.mp hs
    exact h.kept trivial

/-- A run loses an object with each call that is not `Keeps`. -/
theorem run {calls : List Call} (h : Owned s lost)
    (hs : Lib.run DBOperation.step s calls = some t) :
    ∃ lost', Owned t lost' ∧ lost ≤ lost' ∧
      (lost' = lost ↔ runIf DBOperation.step Keeps s calls = some t) := by
  induction calls generalizing s lost with
  | nil =>
    cases hs
    exact ⟨lost, h, le_rfl, iff_of_true rfl rfl⟩
  | cons c calls ih =>
    obtain ⟨u, hu, hs⟩ := Option.bind_eq_some_iff.mp (run_cons ▸ hs)
    obtain ⟨lost', owned, le, iff⟩ := ih (h.step hu) hs
    by_cases keeps : Keeps s c
    · rw [if_pos keeps] at le iff
      refine ⟨lost', owned, le, ?_⟩
      rw [runIf, if_pos keeps, hu]
      exact iff
    · rw [if_neg keeps] at le
      refine ⟨lost', owned, (Nat.le_succ _).trans le, ?_⟩
      rw [runIf, if_neg keeps]
      exact iff_of_false (Nat.ne_of_gt le) (Option.some_ne_none t).symm

theorem free_pointer {heap : Heap} {p : Option Nat} (live : ∀ k, p = some k → heap.Live k) :
    ∃ heap', p.elim (some heap) (fun k => heap.free k) = some heap' ∧
      heap'.made = heap.made ∧ heap'.freed.length = heap.freed.length + p.toList.length ∧
      ∀ j, p ≠ some j → heap.Live j → heap'.Live j := by
  cases p with
  | none => exact ⟨heap, rfl, rfl, rfl, fun _ _ live => live⟩
  | some k =>
    obtain ⟨heap', free, made, freed⟩ := Heap.free_of_live (live k rfl)
    refine ⟨heap', free, made, by rw [freed]; rfl, fun j other live => ?_⟩
    exact live.free free fun same => other (congrArg some same.symm)

theorem destructor (h : Owned s lost) :
    ∃ heap, s.destructor = some heap ∧ (heap.Clean ↔ lost = 0) := by
  obtain ⟨heap, free, made, freed, live⟩ := free_pointer h.res
  obtain ⟨heap', free', made', freed', -⟩ := free_pointer fun k hk =>
    live k (h.apart k hk) (h.state k hk)
  refine ⟨heap', ?_, ?_⟩
  · rw [State.destructor, free]
    exact free'
  · have count := h.count
    rw [Heap.clean_iff, made', freed', made, freed]
    omega

end Owned

theorem ensureStatement_conn (create : Bool) (conn : s.conn = true) :
    ∃ r, s.ensureStatement create = some r ∧ r.2.conn = true := by
  unfold State.ensureStatement
  split
  case h_1 => exact ⟨_, rfl, conn⟩
  case h_2 =>
    rw [if_neg (by rw [conn]; decide)]
    split
    · exact ⟨_, rfl, conn⟩
    · exact ⟨_, rfl, conn⟩

theorem step_manages (manages : c.manages = true) (conn : s.conn = true) :
    ∃ t, step s c = some t ∧ t.conn = true := by
  have there : ¬ s.conn = false := by rw [conn]; decide
  cases c with
  | setDatabase schema create =>
    simp only [step, State.setDatabase, if_neg there]
    split
    · exact ⟨_, rfl, conn⟩
    · exact ⟨_, rfl, conn⟩
  | execute create runs =>
    obtain ⟨r, hr, conn⟩ := ensureStatement_conn create conn
    simp only [step, State.execute, hr]
    exact ⟨_, rfl, conn⟩
  | executeQuery create answer =>
    obtain ⟨r, hr, conn⟩ := ensureStatement_conn create conn
    simp only [step, State.executeQuery, hr, Option.map_some]
    refine ⟨_, rfl, ?_⟩
    split
    · exact conn
    · cases answer <;> exact conn
  | executeUpdate prepare update commit =>
    simp only [step, State.executeUpdate, if_neg there]
    split
    · exact ⟨_, rfl, conn⟩
    · obtain ⟨heap, free, -⟩ := Heap.free_of_live (h := s.heap.make) Heap.live_make
      rw [free]
      exact ⟨_, rfl, conn⟩
  | getColumnCount => cases manages
  | getColumnName => cases manages
  | getNext => cases manages

variable {calls : List Call}

theorem run_manages (manages : ∀ c ∈ calls, c.manages = true) (conn : s.conn = true) :
    ∃ t, run step s calls = some t := by
  induction calls generalizing s with
  | nil => exact ⟨s, rfl⟩
  | cons c calls ih =>
    obtain ⟨head, tail⟩ := List.forall_mem_cons.mp manages
    obtain ⟨u, hu, conn⟩ := step_manages head conn
    obtain ⟨t, ht⟩ := ih tail conn
    exact ⟨t, by rw [run_cons, hu]; exact ht⟩

/-- On a connection every sequence of the calls that make objects runs to its end, with nothing used
that is deleted; and all objects are deleted, each once, exactly if no call has overwritten a
pointer to one. -/
theorem deleted_once (calls : List Call) :
    ((∀ c ∈ calls, c.manages = true) → ∃ s, run step (State.init true) calls = some s) ∧
    ∀ s, run step (State.init true) calls = some s →
      (∀ k, s.state = some k ∨ s.res = some k → s.heap.Live k) ∧
      ∃ heap, s.destructor = some heap ∧
        ((∀ k < heap.made, heap.freed.count k = 1) ↔
          runIf step Keeps (State.init true) calls = some s) := by
  refine ⟨fun manages => run_manages manages rfl, fun s h => ?_⟩
  have init : Owned (State.init true) 0 := ⟨nofun, nofun, nofun, rfl⟩
  obtain ⟨lost, owned, -, iff⟩ := init.run h
  obtain ⟨heap, hd, clean⟩ := owned.destructor
  refine ⟨?_, heap, hd, ?_⟩
  · rintro k (state | res)
    · exact owned.state k state
    · exact owned.res k res
  · rw [← Heap.clean_iff_count, clean, iff]

theorem deleted_once_of_three : ∃ s heap, run step (State.init true)
      [.executeQuery true (.result ["a"]), .executeUpdate true true false] = some s ∧
    s.destructor = some heap ∧ heap.made = 3 ∧ ∀ k < heap.made, heap.freed.count k = 1 := by
  obtain ⟨s, hs⟩ := (deleted_once [.executeQuery true (.result ["a"]),
    .executeUpdate true true false]).1 (by decide)
  obtain ⟨-, heap, hd, iff⟩ := (deleted_once _).2 s hs
  cases hs
  cases hd
  exact ⟨_, _, rfl, rfl, rfl, iff.mpr rfl⟩

/-- The second result set takes the place of the first. -/
theorem result_lost : ¬ ∀ (calls : List Call) s heap, (∀ c ∈ calls, c.manages = true) →
    run step (State.init true) calls = some s → s.destructor = some heap →
    ∀ k < heap.made, heap.freed.count k = 1 := by
  intro all
  have twice := all [.setDatabase true true, .executeQuery true (.result ["a"]),
    .executeQuery true (.result ["a"])] _ _ (by decide) rfl rfl
  exact absurd (twice 1 (by decide)) (by decide)

end Leano.DBOperation
