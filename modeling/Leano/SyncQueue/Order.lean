import Leano.SyncQueue.Defs
import Leano.Lib.Channel

universe u v

namespace Leano.SyncQueue

open Leano.Lib

theorem Queue.full_iff {T : Type u} {q : Queue T} (hb : q.queue.length ≤ toSize q.maxSize) :
    q.full = true ↔ q.notFull = false := by
  simp only [full, notFull, beq_iff_eq, Bool.not_eq_false', decide_eq_true_eq]
  omega

variable {ι : Type v} {T : Type u} [Fintype ι] [DecidableEq ι] {s s' : State ι T} {a : Act ι T}

def State.handedOut (s : State ι T) : List T := s.taken.map Prod.snd

def Represents (s : State ι T) (c : Channel T) : Prop :=
  c.Shows s.enqueued s.handedOut s.q.queue

theorem Represents.step {c : Channel T} (h : Represents s c) (hs : step s a = some s') :
    Represents s' c ∨ ∃ b c', c.step b = some c' ∧ Represents s' c' := by
  cases step_cases hs with
  | @call t op => left; cases op <;> exact h
  | put => exact .inr (h.send _)
  | take _ _ hq =>
    right
    rw [Represents, hq, ← List.singleton_append] at h
    simpa [Represents, State.handedOut] using Channel.Shows.receive h
  | takeList =>
    right
    rw [Represents, ← List.append_nil s.q.queue] at h
    simpa [Represents, State.handedOut, Function.comp_def] using Channel.Shows.receive h
  | _ => exact .inl h

/-- The queue refines the channel. -/
theorem reach_represents {maxSize : Int} (h : Reach step (State.init maxSize) s) :
    ∃ c, Reach Channel.step Channel.new c ∧ Represents s c :=
  h.simulate (R := Represents) Channel.Shows.new fun _ _ _ _ hR _ hs => hR.step hs

theorem step_maxSize (hs : step s a = some s') : s'.q.maxSize = s.q.maxSize := by
  cases step_cases hs with
  | @call t op => cases op <;> rfl
  | _ => rfl

theorem reach_maxSize {maxSize : Int} (h : Reach step (State.init maxSize) s) :
    s.q.maxSize = maxSize :=
  h.invariant (I := fun s => s.q.maxSize = maxSize) rfl
    fun _ _ _ _ ih _ hs => (step_maxSize hs).trans ih

theorem step_bounded (hb : s.q.queue.length ≤ toSize s.q.maxSize) (hs : step s a = some s') :
    s'.q.queue.length ≤ toSize s'.q.maxSize := by
  cases step_cases hs with
  | @call t op => cases op <;> exact hb
  | put _ _ room _ =>
    have room : s.q.queue.length < toSize s.q.maxSize := by simpa [Queue.notFull] using room
    simpa [Nat.succ_le_iff] using room
  | take _ _ hq _ =>
    rw [hq] at hb
    exact (Nat.le_succ _).trans hb
  | takeList => simp
  | _ => exact hb

theorem reach_bounded {maxSize : Int} (h : Reach step (State.init maxSize) s) :
    s.q.queue.length ≤ toSize maxSize := by
  have hb : s.q.queue.length ≤ toSize s.q.maxSize :=
    h.invariant (I := fun s => s.q.queue.length ≤ toSize s.q.maxSize) (Nat.zero_le _)
      fun _ _ _ _ ih _ hs => step_bounded ih hs
  rwa [reach_maxSize h] at hb

def State.unstopped (s : State ι T) : State ι T := { s with q := { s.q with needStop := false } }

theorem add_blocks_iff (t : ι) (x : T) (w : Option ι) :
    s.unstopped.add t x w = some (s.unstopped.setThread t (.blocked (.put x))) ↔
      s.q.notFull = false := by
  constructor
  · intro h
    by_contra room
    have may : s.unstopped.q.mayAdd = true := by
      simpa [Queue.mayAdd, Queue.notFull, State.unstopped] using room
    have go : s.unstopped.q.needStop = false := rfl
    simp only [State.add, may, go, if_true, Bool.false_eq_true, if_false] at h
    obtain ⟨th, -, hth⟩ := State.notified_of_notify h
    have := congrArg (fun s : State ι T => s.q.queue.length) hth
    simp [State.setThread] at this
  · intro full
    have may : s.unstopped.q.mayAdd = false := by
      simpa [Queue.mayAdd, Queue.notFull, State.unstopped] using full
    simp [State.add, may]

/-- Bounded and first in first out, for any number of threads and any interleaving. -/
theorem bounded_fifo {maxSize : Int} (nonneg : 0 ≤ maxSize)
    (h : Reach step (State.init maxSize) s) :
    (s.q.queue.length : Int) ≤ maxSize ∧
    s.enqueued = s.handedOut ++ s.q.queue ∧
    ∀ t x w, s.q.full = true ↔
      s.unstopped.add t x w = some (s.unstopped.setThread t (.blocked (.put x))) := by
  obtain ⟨c, -, hc⟩ := reach_represents h
  have hb := reach_bounded h
  refine ⟨?_, hc.law, fun t x w => ?_⟩
  · rw [toSize_of_nonneg nonneg] at hb
    omega
  · rw [add_blocks_iff, Queue.full_iff]
    rwa [reach_maxSize h]

theorem bounded_fifo_of_two :
    ∃ s : State (Fin 2) Nat, (s.enqueued = [7, 8] ∧ s.handedOut = [7]) ∧
      (s.q.queue.length : Int) ≤ 1 ∧
      s.enqueued = s.handedOut ++ s.q.queue ∧
      ∀ t x w, s.q.full = true ↔
        s.unstopped.add t x w = some (s.unstopped.setThread t (.blocked (.put x))) := by
  obtain ⟨s, hs, hp⟩ := exists_reach step (State.init 1)
    [.call 0 (.put 7), .run 0 none, .ret 0, .call 1 .take, .run 1 none, .call 0 (.put 8),
      .run 0 none]
    (fun s : State (Fin 2) Nat => decide (s.enqueued = [7, 8] ∧ s.handedOut = [7])) (by decide)
  exact ⟨s, of_decide_eq_true hp, bounded_fifo (by decide) hs⟩

end Leano.SyncQueue
