import Leano.ConnPool.Defs

universe u v

namespace Leano.ConnPool

open Leano.Lib

variable {ι : Type v} {K : Type u}

def Connect.Fails : Connect K → Prop
  | .connection _ => False
  | .sqlException => True
  | .runtimeError => True

def State.stale (s : State ι K) (closed : K → Bool) : Bool := s.connList.head?.any closed

def State.Creates (s : State ι K) (closed : K → Bool) : Prop :=
  s.stale closed = true ∨ s.connList = [] ∧ s.curSize < s.maxSize

def State.Exhausted (s : State ι K) : Prop := s.maxSize ≤ s.curSize ∧ s.connList = []

variable [DecidableEq ι] {s s' : State ι K} {t : ι} {closed : K → Bool} {r : Connect K}

theorem answer_pc (res : Res K) : ((s.answer t res).callers t).pc = .returned res := by
  simp only [State.answer, State.setCaller, Function.update_self]

variable [DecidableEq K]

omit [DecidableEq ι] in
theorem fails_of_createConnection (h : s.createConnection r = some (s', none)) : r.Fails := by
  cases r with
  | connection k =>
    simp only [State.createConnection] at h
    split at h
    · cases h
    · cases h
  | sqlException => trivial
  | runtimeError => trivial

/-- `GetConnection` returns NULL only if the first idle connection is not open and the pool is
exhausted or no connection could be made. -/
theorem refuses (hop : (s.callers t).pc = .inside .getConnection)
    (hs : step s (.run t (s.stale closed) r) = some s')
    (null : (s'.callers t).pc = .returned (.connection none)) :
    (∀ k ∈ s.connList.head?, closed k = true) ∧ (s.Exhausted ∨ s.Creates closed ∧ r.Fails) := by
  rw [step, hop] at hs
  simp only [State.critical, State.getConnection] at hs
  cases hq : s.connList with
  | cons con rest =>
    have front : s.stale closed = closed con := by simp [State.stale, hq]
    simp only [hq, front] at hs
    cases stale : closed con with
    | false =>
      simp only [stale] at hs
      cases hs
      rw [answer_pc] at null
      cases null
    | true =>
      simp only [stale, if_true] at hs
      obtain ⟨⟨u, con'⟩, hu, rfl⟩ := Option.map_eq_some_iff.mp hs
      cases con' with
      | some k =>
        rw [answer_pc] at null
        cases null
      | none =>
        refine ⟨by simpa using stale, .inr ⟨.inl (front.trans stale), ?_⟩⟩
        exact fails_of_createConnection hu
  | nil =>
    refine ⟨by simp, ?_⟩
    simp only [hq] at hs
    split at hs
    case isTrue room =>
      obtain ⟨⟨u, con'⟩, hu, rfl⟩ := Option.map_eq_some_iff.mp hs
      cases con' with
      | some k =>
        rw [answer_pc] at null
        cases null
      | none => exact .inr ⟨.inr ⟨hq, room⟩, fails_of_createConnection hu⟩
    case isFalse full => exact .inl ⟨Int.not_lt.mp full, hq⟩

theorem refuses_of_one : ∃ s s' : State (Fin 1) Nat, s.connList = [1] ∧ s'.deleted = [1] ∧
    (∀ k ∈ s.connList.head?, decide (k = 1) = true) ∧
      (s.Exhausted ∨
        s.Creates (fun k => decide (k = 1)) ∧ (Connect.sqlException : Connect Nat).Fails) := by
  obtain ⟨s, -, hp⟩ := exists_reach step (State.new 2)
    [.initConnection (.connection 1), .constructed, .call 0 .getConnection]
    (fun s : State (Fin 1) Nat =>
      decide ((s.callers 0).pc = .inside .getConnection ∧ s.connList = [1]) &&
        (step s (.run 0 (s.stale fun k => decide (k = 1)) .sqlException)).any
          fun s' : State (Fin 1) Nat =>
            decide (s'.deleted = [1] ∧ (s'.callers 0).pc = .returned (.connection none)))
    (by decide)
  obtain ⟨now, hany⟩ := Bool.and_eq_true_iff.mp hp
  obtain ⟨hop, hq⟩ := of_decide_eq_true now
  obtain ⟨s', hs, hp'⟩ := (Option.any_eq_true _ _).mp hany
  obtain ⟨deleted, null⟩ := of_decide_eq_true hp'
  exact ⟨s, s', hq, deleted, refuses hop hs null⟩

/-- The first of two idle connections has been closed and cannot be replaced; the second is open. -/
theorem refuses_beside_open : ¬ ∀ s : State (Fin 1) Nat, Reach step (State.new 4) s →
    ∀ t closed r s', (s.callers t).pc = .inside .getConnection →
      step s (.run t (s.stale closed) r) = some s' →
      (s'.callers t).pc = .returned (.connection none) →
      (∀ k ∈ s.connList, closed k = true) ∧ (s.Exhausted ∨ s.Creates closed ∧ r.Fails) := by
  intro all
  obtain ⟨s, reach, hp⟩ := exists_reach step (State.new 4)
    [.initConnection (.connection 1), .initConnection (.connection 2), .constructed,
      .call 0 .getConnection]
    (fun s : State (Fin 1) Nat =>
      decide ((s.callers 0).pc = .inside .getConnection ∧ s.connList = [1, 2]) &&
        (step s (.run 0 (s.stale fun k => decide (k = 1)) .sqlException)).any
          fun s' : State (Fin 1) Nat =>
            decide ((s'.callers 0).pc = .returned (.connection none))) (by decide)
  obtain ⟨now, hany⟩ := Bool.and_eq_true_iff.mp hp
  obtain ⟨hop, hq⟩ := of_decide_eq_true now
  obtain ⟨s', hs, hp'⟩ := (Option.any_eq_true _ _).mp hany
  have closed := (all s reach 0 _ _ s' hop hs (of_decide_eq_true hp')).1 2 (by simp [hq])
  exact absurd closed (by decide)

end Leano.ConnPool
