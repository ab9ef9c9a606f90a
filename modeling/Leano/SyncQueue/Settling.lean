import Leano.SyncQueue.Wakeup
import Leano.SyncQueue.Offers
import Leano.Lib.Halting
import Leano.Lib.Load

universe u v

namespace Leano.SyncQueue

open Leano.Lib

variable {ι : Type v} {T : Type u}

def Op.worth (n k : Nat) : Op T → Nat
  | .put _ => k + 2
  | .take => 1
  | .takeList => 1
  | .stop => 2 * n + 5
  | .stopNotFull => 2 * n + 3
  | .stopNotEmpty => n + 1

def Res.worth (k : Nat) : Res T → Nat
  | .put => 1
  | .take _ => k
  | .takeList _ => k
  | .stop => 1

abbrev toDo (n k : Nat) : Phase (Op T) (Res T) → Nat := Phase.load (Op.worth n k) (Res.worth k)

theorem Op.worth_pos (n k : Nat) (op : Op T) : 0 < op.worth n k := by
  cases op <;> exact Nat.succ_pos _

variable [Fintype ι] [DecidableEq ι]

def State.load (s : State ι T) (k : Nat) : Nat :=
  k * s.q.queue.length + total (toDo (Fintype.card ι) k) s.threads

variable {s s' : State ι T} {t : ι} {w : Option ι} {op : Op T} {n k : Nat}

theorem toDo_update (th : Threads ι T) (t : ι) (ph : Phase (Op T) (Res T)) :
    total (toDo n k) (Function.update th t ph) + toDo n k (th t) =
      total (toDo n k) th + toDo n k ph :=
  total_update _ _ _ _

theorem load_setThread (s : State ι T) (k : Nat) (t : ι) (ph : Phase (Op T) (Res T)) :
    (s.setThread t ph).load k + toDo (Fintype.card ι) k (s.threads t) =
      s.load k + toDo (Fintype.card ι) k ph := by
  have moved := toDo_update (n := Fintype.card ι) (k := k) s.threads t ph
  simp only [State.load, State.setThread]
  omega

theorem toDo_broadcast (on : Op T → Bool) {th : Threads ι T} (hop : (th t).section? = some op)
    (ph : Phase (Op T) (Res T)) :
    total (toDo n k) (Function.update (notifyAll on th) t ph) + toDo n k (th t) ≤
      total (toDo n k) th + Fintype.card ι + toDo n k ph := by
  have moved := toDo_update (n := n) (k := k) (notifyAll on th) t ph
  rw [notifyAll_section hop] at moved
  exact moved.trans_le (Nat.add_le_add_right load_notifyAll _)

/-- Every critical section lowers the load: until the queue is stopped, or when there is nothing to
be done with an element but to return it. -/
theorem load_of_run (hs : Step s (.run t w) s') (go : s'.q.needStop = false ∨ k = 1) :
    s'.load k < s.load k := by
  have before : ∀ {op}, (s.threads t).section? = some op →
      op.worth (Fintype.card ι) k < toDo (Fintype.card ι) k (s.threads t) := Phase.load_section
  have moved : ∀ ph, total (toDo (Fintype.card ι) k) (Function.update s.threads t ph) +
      toDo (Fintype.card ι) k (s.threads t) =
        total (toDo (Fintype.card ι) k) s.threads + toDo (Fintype.card ι) k ph :=
    toDo_update _ _
  cases hs with
  | @wait t w op hop =>
    have before := before hop
    have moved := moved (.blocked op)
    simp only [State.load, State.setThread, Phase.load] at moved ⊢
    omega
  | @stopped t w op r hop hr stop =>
    have one := go.resolve_left fun go => by cases stop.symm.trans go
    have before := before hop
    have pos := op.worth_pos (Fintype.card ι) k
    have back : r.worth k = 1 := by
      subst one
      cases op <;> cases hr <;> rfl
    have moved := moved (.returned r)
    simp only [State.load, State.setThread, Phase.load, back] at moved ⊢
    omega
  | @put t w x th hop _ _ hn =>
    have before := before hop
    have moved := moved (.returned .put)
    have woken : total (toDo (Fintype.card ι) k) th ≤ total (toDo (Fintype.card ι) k) _ + 1 :=
      hn.load
    simp only [State.load, Phase.load, Op.worth, Res.worth, List.length_append,
      List.length_singleton, Nat.mul_add, Nat.mul_one] at before moved woken ⊢
    omega
  | @take t w x rest th hop _ hq hn =>
    have before := before hop
    have moved := moved (.returned (.take (some x)))
    have woken : total (toDo (Fintype.card ι) k) th ≤ total (toDo (Fintype.card ι) k) _ + 1 :=
      hn.load
    simp only [State.load, Phase.load, Op.worth, Res.worth, hq, List.length_cons, Nat.mul_add,
      Nat.mul_one] at before moved woken ⊢
    omega
  | @takeList t w th hop _ more hn =>
    have before := before hop
    have moved := moved (.returned (.takeList (some s.q.queue)))
    have woken : total (toDo (Fintype.card ι) k) th ≤ total (toDo (Fintype.card ι) k) _ + 1 :=
      hn.load
    have removed : k ≤ k * s.q.queue.length :=
      Nat.le_mul_of_pos_right k (List.length_pos_iff.mpr more)
    simp only [State.load, Phase.load, Op.worth, Res.worth, List.length_nil, Nat.mul_zero]
      at before moved woken ⊢
    omega
  | stop hop =>
    have before := before hop
    have moved := moved (.ready .stopNotFull)
    simp only [State.load, State.setThread, Phase.load, Op.worth] at before moved ⊢
    omega
  | stopNotFull hop =>
    have before := before hop
    have moved := toDo_broadcast (n := Fintype.card ι) (k := k) Op.onNotFull hop
      (.ready .stopNotEmpty)
    simp only [State.load, State.setThread, Phase.load, Op.worth] at before moved ⊢
    omega
  | stopNotEmpty hop =>
    have before := before hop
    have moved := toDo_broadcast (n := Fintype.card ι) (k := k) Op.onNotEmpty hop
      (.returned .stop)
    simp only [State.load, State.setThread, Phase.load, Op.worth, Res.worth] at before moved ⊢
    omega

theorem exists_run (hop : (s.threads t).section? = some op) :
    ∃ w s', step s (.run t w) = some s' := by
  have notifies : ∀ (s : State ι T) (on : Op T → Bool), ∃ w s', s.notify on w = some s' := by
    intro s on
    obtain ⟨w, th, hth⟩ := exists_notifyOne on s.threads
    exact ⟨w, _, Option.map_eq_some_iff.mpr ⟨th, hth, rfl⟩⟩
  have runs : (∃ w s', s.critical t w op = some s') → ∃ w s', step s (.run t w) = some s' := by
    rintro ⟨w, s', hw⟩
    exact ⟨w, s', Option.bind_eq_some_iff.mpr ⟨op, hop, hw⟩⟩
  apply runs
  cases op with
  | put x =>
    simp only [State.critical, State.add]
    split
    · split
      · exact ⟨none, _, rfl⟩
      · exact notifies _ _
    · exact ⟨none, _, rfl⟩
  | take =>
    simp only [State.critical, State.take]
    split
    case isTrue may =>
      split
      case isTrue => exact ⟨none, _, rfl⟩
      case isFalse go =>
        split
        case h_1 hq => simp [Queue.mayTake, Queue.notEmpty, go, hq] at may
        case h_2 => exact notifies _ _
    case isFalse => exact ⟨none, _, rfl⟩
  | takeList =>
    simp only [State.critical, State.takeList]
    split
    · split
      · exact ⟨none, _, rfl⟩
      · exact notifies _ _
    · exact ⟨none, _, rfl⟩
  | stop => exact ⟨none, _, rfl⟩
  | stopNotFull => exact ⟨none, _, rfl⟩
  | stopNotEmpty => exact ⟨none, _, rfl⟩

def Kept (s : State ι T) : Prop :=
  s.q.needStop = false → (s.enqueued : Multiset T) + s.pending = s.offered

theorem pending_eq {ph : Phase (Op T) (Res T)} (same : pendingPut ph = pendingPut (s.threads t)) :
    (s.setThread t ph).pending = s.pending := by
  have moved := pending_setThread s t ph
  rw [same] at moved
  exact add_right_cancel moved

theorem Kept.step {a : Act ι T} (h : Kept s) (first : StopFirst s) (hs : Step s a s') :
    Kept s' := by
  intro go
  have same : ∀ {s' : State ι T}, s.q.needStop = false → s'.enqueued = s.enqueued →
      s'.offered = s.offered → s'.pending = s.pending →
      (s'.enqueued : Multiset T) + s'.pending = s'.offered := by
    intro s' go he ho hp
    rw [he, ho, hp]
    exact h go
  cases hs with
  | @call t op ht hop =>
    have moved := pending_setThread s t (.ready op)
    rw [ht, pendingPut_idle, add_zero] at moved
    cases op with
    | put x =>
      calc
        (s.enqueued : Multiset T) + (s.setThread t (.ready (.put x))).pending =
            s.enqueued + s.pending + {x} := by
          rw [add_assoc]
          exact congrArg _ moved
        _ = (s.offered : Multiset T) + {x} := by rw [h go]
        _ = (s.offered ++ [x] : List T) := rfl
    | _ => exact same go rfl rfl (moved.trans (add_zero _))
  | spurious ht => exact same go rfl rfl (pending_eq (by rw [ht]; rfl))
  | ret ht => exact same go rfl rfl (pending_eq (by rw [ht]; rfl))
  | wait ht => exact same go rfl rfl (pending_eq (by rw [pendingPut_of_section ht]; rfl))
  | stopped _ _ stop => cases stop.symm.trans go
  | @put t w x th ht _ _ hn =>
    have moved := pending_setThread s t (.returned .put)
    rw [pendingPut_of_section ht, pendingPut_put, pendingPut_returned, add_zero] at moved
    calc
      ((s.enqueued ++ [x] : List T) : Multiset T) + total pendingPut th =
          s.enqueued + {x} + (s.setThread t (.returned .put)).pending := by
        rw [total_pendingPut_notified hn]
        rfl
      _ = s.enqueued + ((s.setThread t (.returned .put)).pending + {x}) := by
        rw [add_right_comm, add_assoc]
      _ = s.enqueued + s.pending := congrArg _ moved
      _ = s.offered := h go
  | take ht _ _ hn =>
    refine same go rfl rfl ((total_pendingPut_notified hn).trans (pending_eq ?_))
    rw [pendingPut_of_section ht]
    rfl
  | takeList ht _ _ hn =>
    refine same go rfl rfl ((total_pendingPut_notified hn).trans (pending_eq ?_))
    rw [pendingPut_of_section ht]
    rfl
  | stop => cases go
  | stopNotFull ht => cases (first go _).of_section ht
  | stopNotEmpty ht => cases (first go _).of_section ht

theorem reach_kept {maxSize : Int} (h : Reach step (State.init maxSize) s) : Kept s := by
  refine h.invariant (I := Kept) (fun _ => ?_) ?_
  · have : (State.init maxSize : State ι T).pending = 0 := total_eq_zero fun _ => rfl
    rw [this]
    rfl
  · exact fun _ _ _ hr ih _ hs => ih.step (reach_stopFirst hr) (step_cases hs)

theorem enqueued_of_idle {maxSize : Int} (h : Reach step (State.init maxSize) s)
    (go : s.q.needStop = false) (none : ∀ t, pendingPut (s.threads t) = 0) :
    (s.enqueued : Multiset T) = s.offered := by
  have kept := reach_kept h go
  rwa [State.pending, total_eq_zero none, add_zero] at kept

omit [DecidableEq ι] in
theorem awake_of_settled (settled : ∀ t, (s.threads t).section? = none) (on : Op T → Bool) :
    s.awake on = 0 := by
  refine count_eq_zero.mpr fun t => ?_
  have none := settled t
  cases ht : s.threads t with
  | woken op => cases ht ▸ none
  | _ => rfl

theorem empty_of_settled {maxSize : Int} (pos : 1 ≤ maxSize)
    (h : Reach step (State.init maxSize) s) (go : s.q.needStop = false)
    (settled : ∀ t, (s.threads t).section? = none)
    (waits : ∃ t, (s.threads t).isBlocked Op.onNotEmpty = true) :
    s.q.queue = [] ∧ ∀ t, (s.threads t).isBlocked Op.onNotFull = false := by
  have wakes := reach_wakes pos h go
  have asleep := awake_of_settled settled
  have empty : s.q.queue.length = 0 :=
    Nat.le_zero.mp ((wakes.consumers (count_pos.mpr waits)).trans_eq (asleep _))
  refine ⟨List.eq_nil_of_length_eq_zero empty, count_eq_zero.mp ?_⟩
  refine Nat.eq_zero_of_not_pos fun some => ?_
  exact absurd (asleep _) (wakes.producers empty some).ne'

end Leano.SyncQueue
