import Leano.SyncQueue.Defs
import Mathlib.Algebra.Order.Group.Multiset

universe u v

namespace Leano.SyncQueue

open Leano.Lib

variable {ι : Type v} {T : Type u}

def pendingPut (ph : Phase (Op T) (Res T)) : Multiset T :=
  match ph.op? with
  | some (.put x) => {x}
  | _ => 0

@[simp] theorem pendingPut_idle : pendingPut (.idle : Phase (Op T) (Res T)) = 0 := rfl

@[simp] theorem pendingPut_returned (r : Res T) :
    pendingPut (.returned r : Phase (Op T) (Res T)) = 0 := rfl

@[simp] theorem pendingPut_put (x : T) :
    pendingPut (.ready (.put x) : Phase (Op T) (Res T)) = {x} := rfl

theorem pendingPut_of_section {ph : Phase (Op T) (Res T)} {op : Op T}
    (h : ph.section? = some op) : pendingPut ph = pendingPut (.ready op) := by
  simp only [pendingPut, Phase.op?_of_section h]
  rfl

variable [Fintype ι] [DecidableEq ι]

def State.pending (s : State ι T) : Multiset T := total pendingPut s.threads

variable {s s' : State ι T} {a : Act ι T} {t : ι} {ph : Phase (Op T) (Res T)}

theorem pending_setThread (s : State ι T) (t : ι) (ph : Phase (Op T) (Res T)) :
    (s.setThread t ph).pending + pendingPut (s.threads t) = s.pending + pendingPut ph :=
  total_update _ _ _ _

theorem pending_setThread_le (h : pendingPut ph ≤ pendingPut (s.threads t)) :
    (s.setThread t ph).pending ≤ s.pending := by
  have moved := pending_setThread s t ph
  have le : (s.setThread t ph).pending + pendingPut (s.threads t) ≤
      s.pending + pendingPut (s.threads t) := by
    rw [moved]
    exact add_le_add_right h s.pending
  exact le_of_add_le_add_right le

theorem total_pendingPut_notified {on : Op T → Bool} {th th' : Threads ι T}
    (h : Notified on th th') : total pendingPut th' = total pendingPut th :=
  total_congr fun u => h.apply_eq (f := pendingPut) (fun _ => rfl) u

omit [DecidableEq ι] in
theorem total_pendingPut_notifyAll (on : Op T → Bool) (th : Threads ι T) :
    total pendingPut (notifyAll on th) = total pendingPut th :=
  total_congr fun u => apply_notifyAll on th (f := pendingPut) (fun _ => rfl) u

def Offered (s : State ι T) : Prop := (s.enqueued : Multiset T) + s.pending ≤ s.offered

theorem Offered.step (h : Offered s) (hs : step s a = some s') : Offered s' := by
  have lower : ∀ {s' : State ι T}, s'.enqueued = s.enqueued → s'.offered = s.offered →
      s'.pending ≤ s.pending → Offered s' := by
    intro s' he ho hp
    rw [Offered, he, ho]
    exact (add_le_add_right hp _).trans h
  cases step_cases hs with
  | @call t op ht hop =>
    have moved := pending_setThread s t (.ready op)
    rw [ht, pendingPut_idle, add_zero] at moved
    cases op with
    | put x =>
      calc
        (s.enqueued : Multiset T) + (s.setThread t (.ready (.put x))).pending =
            s.enqueued + s.pending + {x} := by
          rw [add_assoc]
          exact congrArg _ moved
        _ ≤ (s.offered : Multiset T) + {x} := add_le_add_left h _
        _ = (s.offered ++ [x] : List T) := rfl
    | _ => exact lower rfl rfl (moved.trans (add_zero _)).le
  | spurious ht => exact lower rfl rfl (pending_setThread_le (by rw [ht]; rfl))
  | ret => exact lower rfl rfl (pending_setThread_le (Multiset.zero_le _))
  | wait ht => exact lower rfl rfl (pending_setThread_le (by rw [pendingPut_of_section ht]; rfl))
  | stopped => exact lower rfl rfl (pending_setThread_le (Multiset.zero_le _))
  | @put t w x th ht _ _ hn =>
    have moved := pending_setThread s t (.returned .put)
    rw [pendingPut_of_section ht, pendingPut_put, pendingPut_returned, add_zero] at moved
    calc
      ((s.enqueued ++ [x] : List T) : Multiset T) + total pendingPut th =
          s.enqueued + {x} + (s.setThread t (.returned .put)).pending := by
        rw [total_pendingPut_notified hn]
        rfl
      _ = s.enqueued + ((s.setThread t (.returned .put)).pending + {x}) := by
        rw [add_right_comm, add_assoc]
      _ = s.enqueued + s.pending := congrArg _ moved
      _ ≤ s.offered := h
  | take _ _ _ hn =>
    refine lower rfl rfl ?_
    exact (total_pendingPut_notified hn).trans_le (pending_setThread_le (Multiset.zero_le _))
  | takeList _ _ _ hn =>
    refine lower rfl rfl ?_
    exact (total_pendingPut_notified hn).trans_le (pending_setThread_le (Multiset.zero_le _))
  | stop => exact lower rfl rfl (pending_setThread_le (Multiset.zero_le _))
  | stopNotFull =>
    refine lower rfl rfl ((pending_setThread_le (Multiset.zero_le _)).trans_eq ?_)
    exact total_pendingPut_notifyAll _ _
  | stopNotEmpty =>
    refine lower rfl rfl ((pending_setThread_le (Multiset.zero_le _)).trans_eq ?_)
    exact total_pendingPut_notifyAll _ _

theorem reach_enqueued_le {maxSize : Int} (h : Reach step (State.init maxSize) s) :
    (s.enqueued : Multiset T) ≤ s.offered := by
  have offered : Offered s := by
    refine h.invariant (I := Offered) ?_ fun _ _ _ _ ih _ hs => ih.step hs
    have : (State.init maxSize : State ι T).pending = 0 := total_eq_zero fun _ => rfl
    rw [Offered, this]
    exact le_rfl
  exact (Multiset.le_add_right _ _).trans offered

end Leano.SyncQueue
