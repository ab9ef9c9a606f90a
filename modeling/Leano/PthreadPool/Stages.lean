import Leano.PthreadPool.Counter
import Leano.Lib.Channel

universe u v

namespace Leano.PthreadPool

open Leano.Lib

variable {n : Nat} {C : Type v} {M : Type u}

def WorkerPc.inHand : WorkerPc M → Multiset M
  | .unlock qMsg => {qMsg}
  | .process qMsg => {qMsg}
  | _ => 0

def WorkerPc.finishing : WorkerPc M → Multiset M
  | .delete qMsg => {qMsg}
  | _ => 0

def ClientPc.pending : ClientPc M → Option M
  | .lock newMsg => some newMsg
  | .push newMsg => some newMsg
  | _ => none

def ClientPc.waits : ClientPc M → Bool
  | .lock _ => true
  | _ => false

def tasks (log : List (Fin n × M)) : Multiset M := (log.map Prod.snd : List M)

@[simp] theorem tasks_append (log : List (Fin n × M)) (w : Fin n) (m : M) :
    tasks (log ++ [(w, m)]) = tasks log + {m} := by
  simp [tasks, ← Multiset.coe_add]

theorem wake_inHand (pc : WorkerPc M) : pc.wake.inHand = pc.inHand := by
  cases pc <;> rfl

theorem wake_finishing (pc : WorkerPc M) : pc.wake.finishing = pc.finishing := by
  cases pc <;> rfl

def Represents (s : Pool n C M) (ch : Channel M) : Prop :=
  ch.Shows s.submitted (s.dequeued.map Prod.snd) s.queueB

structure Offered (s : Pool n C M) : Prop where
  submitted_made : ∀ m ∈ s.submitted, m ∈ s.made
  once : s.submitted.Nodup
  pending_made : ∀ c m, (s.client c).pending = some m → m ∈ s.made
  pending_new : ∀ c m, (s.client c).pending = some m → m ∉ s.submitted
  apart : ∀ c d m, (s.client c).pending = some m → (s.client d).pending = some m → c = d

structure Handled (s : Pool n C M) : Prop where
  dequeued : tasks s.dequeued = total WorkerPc.inHand s.worker + tasks s.executed
  executed : tasks s.executed = total WorkerPc.finishing s.worker + tasks s.deleted

variable {s s' : Pool n C M}

theorem Handled.move (h : Handled s) {w : Fin n} {pc : WorkerPc M} {d e f : Multiset M}
    (worker : s'.worker = Function.update s.worker w pc)
    (dequeued : tasks s'.dequeued = tasks s.dequeued + d)
    (executed : tasks s'.executed = tasks s.executed + e)
    (deleted : tasks s'.deleted = tasks s.deleted + f)
    (inHand : pc.inHand + e = (s.worker w).inHand + d)
    (finishing : pc.finishing + f = (s.worker w).finishing + e) : Handled s' where
  dequeued := by
    rw [worker, dequeued, executed, h.dequeued, add_right_comm, ← total_move _ inHand]
    exact add_right_comm _ _ _ |>.trans (add_assoc _ _ _)
  executed := by
    rw [worker, executed, deleted, h.executed, add_right_comm, ← total_move _ finishing]
    exact add_right_comm _ _ _ |>.trans (add_assoc _ _ _)

theorem Handled.keep (h : Handled s) {w : Fin n} {pc : WorkerPc M}
    (worker : s'.worker = Function.update s.worker w pc)
    (dequeued : s'.dequeued = s.dequeued) (executed : s'.executed = s.executed)
    (deleted : s'.deleted = s.deleted)
    (inHand : pc.inHand = (s.worker w).inHand) (finishing : pc.finishing = (s.worker w).finishing) :
    Handled s' :=
  h.move (d := 0) (e := 0) (f := 0) worker (by rw [dequeued, add_zero]) (by rw [executed, add_zero])
    (by rw [deleted, add_zero]) (by rw [inHand]) (by rw [finishing])

theorem Handled.broadcast (h : Handled s) : Handled s.broadcast where
  dequeued := h.dequeued.trans (congrArg (· + _) (total_congr fun _ => wake_inHand _).symm)
  executed := h.executed.trans (congrArg (· + _) (total_congr fun _ => wake_finishing _).symm)

theorem Offered.quiet (h : Offered s) (made : s'.made = s.made)
    (submitted : s'.submitted = s.submitted)
    (same : ∀ c, (s'.client c).pending = (s.client c).pending) : Offered s' where
  submitted_made := by rw [submitted, made]; exact h.submitted_made
  once := by rw [submitted]; exact h.once
  pending_made := by simpa only [same, made] using h.pending_made
  pending_new := by simpa only [same, submitted] using h.pending_new
  apart := by simpa only [same] using h.apart

variable [DecidableEq C] {debug : Bool} {a : Act n C M}

theorem Represents.step {ch : Channel M} (h : Represents s ch) (hs : Step debug s a s') :
    Represents s' ch ∨ ∃ b ch', ch.step b = some ch' ∧ Represents s' ch' := by
  cases hs with
  | push => exact .inr (h.send _)
  | pop hw hq =>
    right
    rw [Represents, hq, ← List.singleton_append] at h
    simpa [Represents, Pool.setWorker] using Channel.Shows.receive h
  | _ => exact .inl h

theorem Offered.add (h : Offered s) {c : C} {newMsg : M} (fresh : newMsg ∉ s.made) :
    Offered ({ s with made := s.made ++ [newMsg] }.setClient c (.lock newMsg)) := by
  have other : ∀ d m, d ≠ c →
      (Function.update s.client c (.lock newMsg) d).pending = some m →
      m ∈ s.made ∧ (s.client d).pending = some m := by
    intro d m hd hm
    rw [Function.update_of_ne hd] at hm
    exact ⟨h.pending_made d m hm, hm⟩
  have own : ∀ m, (Function.update s.client c (.lock newMsg) c).pending = some m → newMsg = m := by
    intro m hm
    rw [Function.update_self] at hm
    exact Option.some.inj hm
  constructor
  case submitted_made => exact fun m hm => List.mem_append_left _ (h.submitted_made m hm)
  case once => exact h.once
  case pending_made =>
    intro d m hm
    by_cases hd : d = c
    · subst hd
      cases own m hm
      exact List.mem_append_right _ (List.mem_singleton_self _)
    · exact List.mem_append_left _ (other d m hd hm).1
  case pending_new =>
    intro d m hm
    by_cases hd : d = c
    · subst hd
      cases own m hm
      exact fun old => fresh (h.submitted_made _ old)
    · exact h.pending_new d m (other d m hd hm).2
  case apart =>
    intro d e m hd he
    by_cases hdc : d = c
    · subst hdc
      cases own m hd
      by_contra ne
      exact fresh (other e _ (Ne.symm ne) he).1
    · obtain ⟨old, hd⟩ := other d m hdc hd
      by_cases hec : e = c
      · subst hec
        cases own m he
        exact absurd old fresh
      · exact h.apart d e m hd (other e m hec he).2

theorem Offered.push (h : Offered s) {c : C} {newMsg : M} (hc : s.client c = .push newMsg)
    (submitted : s'.submitted = s.submitted ++ [newMsg]) (made : s'.made = s.made)
    (client : s'.client = Function.update s.client c .load) : Offered s' := by
  have mine : (s.client c).pending = some newMsg := by rw [hc]; rfl
  have other : ∀ d m, (s'.client d).pending = some m → d ≠ c ∧ (s.client d).pending = some m := by
    intro d m hm
    rw [client] at hm
    by_cases hd : d = c
    · subst hd
      rw [Function.update_self] at hm
      cases hm
    · rw [Function.update_of_ne hd] at hm
      exact ⟨hd, hm⟩
  constructor
  case submitted_made =>
    intro m hm
    rw [submitted, List.mem_append, List.mem_singleton] at hm
    rw [made]
    rcases hm with hm | rfl
    · exact h.submitted_made m hm
    · exact h.pending_made c _ mine
  case once =>
    rw [submitted]
    exact List.nodup_append_comm.mp (List.nodup_cons.mpr ⟨h.pending_new c _ mine, h.once⟩)
  case pending_made =>
    intro d m hm
    rw [made]
    exact h.pending_made d m (other d m hm).2
  case pending_new =>
    intro d m hm old
    obtain ⟨hd, hm⟩ := other d m hm
    rw [submitted, List.mem_append, List.mem_singleton] at old
    rcases old with old | rfl
    · exact h.pending_new d m hm old
    · exact hd (h.apart d c _ hm mine)
  case apart => exact fun d e m hd he => h.apart d e m (other d m hd).2 (other e m he).2

inductive Offers (s : Pool n C M) (a : Act n C M) (s' : Pool n C M) : Prop
  | add {c newMsg} (call : a = .add c newMsg) (fresh : newMsg ∉ s.made)
      (eq : s' = { s with made := s.made ++ [newMsg] }.setClient c (.lock newMsg))
  | acquire {c newMsg} (pc : s.client c = .lock newMsg) (free : s.queueLock = none)
      (made : s'.made = s.made) (submitted : s'.submitted = s.submitted)
      (client : s'.client = Function.update s.client c (.push newMsg))
  | push {c newMsg} (pc : s.client c = .push newMsg) (made : s'.made = s.made)
      (submitted : s'.submitted = s.submitted ++ [newMsg])
      (client : s'.client = Function.update s.client c .load)
  | other (made : s'.made = s.made) (submitted : s'.submitted = s.submitted)
      (waits : ∀ c, (s'.client c).waits = (s.client c).waits)
      (pending : ∀ c, (s'.client c).pending = (s.client c).pending)

theorem Offers.move {c : C} {pc : ClientPc M} (made : s'.made = s.made)
    (submitted : s'.submitted = s.submitted)
    (client : s'.client = Function.update s.client c pc) (waits : pc.waits = (s.client c).waits)
    (pending : pc.pending = (s.client c).pending) : Offers s a s' := by
  refine .other made submitted ?_ ?_ <;> rw [client]
  · exact apply_update_eq waits
  · exact apply_update_eq pending

theorem offers_of_step (hs : Step debug s a s') : Offers s a s' := by
  cases hs with
  | add _ fresh => exact .add rfl fresh rfl
  | destory hc => exact .move rfl rfl rfl (by rw [hc]; rfl) (by rw [hc]; rfl)
  | acquireAdd hc free => exact .acquire hc free rfl rfl rfl
  | push hc => exact .push hc rfl rfl rfl
  | load hc => exact .move rfl rfl rfl (by rw [hc]; rfl) (by rw [hc]; rfl)
  | store hc => exact .move rfl rfl rfl (by rw [hc]; rfl) (by rw [hc]; rfl)
  | unlockAdd hc => exact .move rfl rfl rfl (by rw [hc]; rfl) (by rw [hc]; rfl)
  | signal hc => exact .move rfl rfl rfl (by rw [hc]; rfl) (by rw [hc]; rfl)
  | signalNobody hc => exact .move rfl rfl rfl (by rw [hc]; rfl) (by rw [hc]; rfl)
  | testShutdown hc =>
    exact .move rfl rfl rfl (by rw [hc]; split <;> rfl) (by rw [hc]; split <;> rfl)
  | shut hc => exact .move rfl rfl rfl (by rw [hc]; rfl) (by rw [hc]; rfl)
  | broadcast hc => exact .move rfl rfl rfl (by rw [hc]; rfl) (by rw [hc]; rfl)
  | next hc => exact .move rfl rfl rfl (by rw [hc]; rfl) (by rw [hc]; rfl)
  | joined hc => exact .move rfl rfl rfl (by rw [hc]; rfl) (by rw [hc]; rfl)
  | join _ hc => exact .move rfl rfl rfl (by rw [hc]; rfl) (by rw [hc]; rfl)
  | _ => exact .other rfl rfl (fun _ => rfl) (fun _ => rfl)

theorem Offered.step (h : Offered s) (hs : Offers s a s') : Offered s' := by
  cases hs with
  | add _ fresh eq =>
    rw [eq]
    exact h.add fresh
  | acquire pc _ made submitted client =>
    refine h.quiet made submitted ?_
    rw [client]
    exact apply_update_eq (by rw [pc]; rfl)
  | push pc made submitted client => exact h.push pc submitted made client
  | other made submitted _ pending => exact h.quiet made submitted pending

theorem Handled.step (h : Handled s) (boot : Booting s) (hs : Step debug s a s') : Handled s' := by
  cases hs with
  | create i hs =>
    have unborn := boot.unborn (w := ⟨_, i⟩) (by rw [hs]; exact le_rfl)
    exact h.keep rfl rfl rfl rfl (by rw [unborn]; rfl) (by rw [unborn]; rfl)
  | signal hc hw => exact h.keep rfl rfl rfl rfl (by rw [hw]; rfl) (by rw [hw]; rfl)
  | broadcast => exact ⟨h.broadcast.dequeued, h.broadcast.executed⟩
  | next => exact ⟨h.broadcast.dequeued, h.broadcast.executed⟩
  | acquire hw =>
    rcases hw with hw | hw <;> exact h.keep rfl rfl rfl rfl (by rw [hw]; rfl) (by rw [hw]; rfl)
  | empty hw => exact h.keep rfl rfl rfl rfl (by rw [hw]; rfl) (by rw [hw]; rfl)
  | wait hw => exact h.keep rfl rfl rfl rfl (by rw [hw]; rfl) (by rw [hw]; rfl)
  | proceed hw => exact h.keep rfl rfl rfl rfl (by rw [hw]; rfl) (by rw [hw]; rfl)
  | check hw =>
    exact h.keep rfl rfl rfl rfl (by rw [hw]; split <;> rfl) (by rw [hw]; split <;> rfl)
  | unlockExit hw => exact h.keep rfl rfl rfl rfl (by rw [hw]; rfl) (by rw [hw]; rfl)
  | take hw => exact h.keep rfl rfl rfl rfl (by rw [hw]; rfl) (by rw [hw]; rfl)
  | relock hw => exact h.keep rfl rfl rfl rfl (by rw [hw]; rfl) (by rw [hw]; rfl)
  | fault hw => exact h.keep rfl rfl rfl rfl (by rw [hw]; rfl) (by rw [hw]; rfl)
  | @pop w qMsg rest hw hq =>
    refine h.move (d := {qMsg}) (e := 0) (f := 0) rfl (tasks_append _ _ _) (add_zero _).symm
      (add_zero _).symm ?_ ?_
    · rw [hw]
      exact add_comm _ _
    · rw [hw]
      rfl
  | unlock hw => exact h.keep rfl rfl rfl rfl (by rw [hw]; rfl) (by rw [hw]; rfl)
  | @process w qMsg hw =>
    refine h.move (d := 0) (e := {qMsg}) (f := 0) rfl (add_zero _).symm (tasks_append _ _ _)
      (add_zero _).symm ?_ ?_
    · rw [hw]
      exact add_comm _ _
    · rw [hw]
      exact add_comm _ _
  | @delete w qMsg hw =>
    refine h.move (d := 0) (e := 0) (f := {qMsg}) rfl (add_zero _).symm (add_zero _).symm
      (tasks_append _ _ _) ?_ ?_
    · rw [hw]
      rfl
    · rw [hw]
      exact add_comm _ _
  | spurious hw => exact h.keep rfl rfl rfl rfl (by rw [hw]; rfl) (by rw [hw]; rfl)
  | _ => exact ⟨h.dequeued, h.executed⟩

variable [DecidableEq M]

theorem reach_offered (h : Reach (step debug) Pool.init s) : Offered s := by
  refine h.invariant (I := Offered) ⟨nofun, .nil, nofun, nofun, nofun⟩ ?_
  exact fun _ _ _ _ ih _ hs => ih.step (offers_of_step (step_cases hs))

theorem reach_handled (h : Reach (step debug) Pool.init s) : Handled s := by
  refine h.invariant (I := Handled) ?_ ?_
  · constructor
    · simp [Pool.init, tasks, total, WorkerPc.inHand]
    · simp [Pool.init, tasks, total, WorkerPc.finishing]
  · exact fun _ _ _ hr ih _ hs => ih.step (reach_inOrder hr).booting (step_cases hs)

/-- The pool's queue refines the channel. -/
theorem reach_represents (h : Reach (step debug) Pool.init s) : ∃ ch, Represents s ch := by
  have related := h.simulate (R := Represents) Channel.Shows.new
    fun _ _ _ _ hr _ hs => hr.step (step_cases hs)
  obtain ⟨ch, -, hr⟩ := related
  exact ⟨ch, hr⟩

def WorkerPc.holds (m : M) (pc : WorkerPc M) : Bool := pc.inHand.count m == 1

def WorkerPc.deletes (m : M) (pc : WorkerPc M) : Bool := pc.finishing.count m == 1

omit [DecidableEq C] in
theorem count_inHand (s : Pool n C M) (m : M) :
    (total WorkerPc.inHand s.worker).count m = count (WorkerPc.holds m) s.worker := by
  rw [total, Multiset.count_sum']
  refine Finset.sum_congr rfl fun w _ => ?_
  unfold WorkerPc.holds
  cases s.worker w with
  | unlock qMsg => by_cases hm : m = qMsg <;> simp [WorkerPc.inHand, hm]
  | process qMsg => by_cases hm : m = qMsg <;> simp [WorkerPc.inHand, hm]
  | _ => rfl

omit [DecidableEq C] in
theorem count_finishing (s : Pool n C M) (m : M) :
    (total WorkerPc.finishing s.worker).count m = count (WorkerPc.deletes m) s.worker := by
  rw [total, Multiset.count_sum']
  refine Finset.sum_congr rfl fun w _ => ?_
  unfold WorkerPc.deletes
  cases s.worker w with
  | delete qMsg => by_cases hm : m = qMsg <;> simp [WorkerPc.finishing, hm]
  | _ => rfl

theorem count_tasks (log : List (Fin n × M)) (m : M) :
    (tasks log).count m = (log.map Prod.snd).count m := Multiset.coe_count _ _

theorem count_once (h : Reach (step debug) Pool.init s) {m : M} (hm : m ∈ s.submitted) :
    s.queueB.count m + count (WorkerPc.holds m) s.worker +
      (s.executed.map Prod.snd).count m = 1 := by
  obtain ⟨ch, hr⟩ := reach_represents h
  have held := congrArg (Multiset.count m) (reach_handled h).dequeued
  rw [Multiset.count_add, count_inHand, count_tasks, count_tasks] at held
  have all := congrArg (List.count m) hr.law
  rw [List.count_append, List.count_eq_one_of_mem (reach_offered h).once hm, held] at all
  omega

theorem count_executed (h : Reach (step debug) Pool.init s) (m : M) :
    (s.executed.map Prod.snd).count m =
      count (WorkerPc.deletes m) s.worker + (s.deleted.map Prod.snd).count m := by
  have done := congrArg (Multiset.count m) (reach_handled h).executed
  rwa [Multiset.count_add, count_finishing, count_tasks, count_tasks] at done

/-- A task that is submitted is queued, in the hands of one worker that has not executed it, or
executed once; and what is executed is being deleted by one worker or deleted once. -/
theorem runs_once (h : Reach (step debug) Pool.init s) :
    (s.queueLock = none → 0 ≤ s.curQueueSize ∧ s.curQueueSize ≤ s.queueB.length) ∧
    (∀ w, s.worker w = .front → s.queueB ≠ []) ∧
    (∀ w, s.worker w ≠ .fault) ∧
    s.dequeued.map Prod.snd <+: s.submitted ∧
    ∀ m ∈ s.submitted,
      s.queueB.count m + count (WorkerPc.holds m) s.worker +
        (s.executed.map Prod.snd).count m = 1 ∧
      (s.executed.map Prod.snd).count m =
        count (WorkerPc.deletes m) s.worker + (s.deleted.map Prod.snd).count m := by
  have order := reach_inOrder h
  obtain ⟨ch, hr⟩ := reach_represents h
  refine ⟨order.size_le, fun _ => order.front, order.no_fault, ⟨s.queueB, hr.law.symm⟩, ?_⟩
  exact fun m hm => ⟨count_once h hm, count_executed h m⟩

theorem runs_once_of_two :
    ∃ s : Pool 2 (Fin 2) Nat, (s.submitted = [7, 8, 9] ∧ s.deleted = [(0, 7)] ∧
      s.executed = [(0, 7), (1, 8)] ∧ s.queueB = [9] ∧ s.shutdown = true) ∧
      (s.queueLock = none → 0 ≤ s.curQueueSize ∧ s.curQueueSize ≤ s.queueB.length) ∧
      (∀ w, s.worker w = .front → s.queueB ≠ []) ∧
      (∀ w, s.worker w ≠ .fault) ∧
      s.dequeued.map Prod.snd <+: s.submitted ∧
      ∀ m ∈ s.submitted,
        s.queueB.count m + count (WorkerPc.holds m) s.worker +
          (s.executed.map Prod.snd).count m = 1 ∧
        (s.executed.map Prod.snd).count m =
          count (WorkerPc.deletes m) s.worker + (s.deleted.map Prod.snd).count m := by
  obtain ⟨s, hs, hp⟩ := exists_reach (step false) Pool.init
    [.start, .start, .start, .start, .start, .start,
      .add 0 7, .add 1 8, .client 0 none, .client 0 none, .client 0 none, .client 0 none,
      .client 0 none, .client 0 none, .client 1 none, .client 1 none, .client 1 none,
      .client 1 none, .client 1 none, .client 1 none,
      .add 0 9, .client 0 none, .client 0 none, .client 0 none, .client 0 none, .client 0 none,
      .work 0, .work 0, .work 0, .work 0, .work 0, .work 0, .work 0, .work 0,
      .work 1, .work 1, .work 1, .work 1, .work 1, .work 1, .work 1,
      .destory 1, .client 1 none, .client 1 none]
    (fun s : Pool 2 (Fin 2) Nat => decide (s.submitted = [7, 8, 9] ∧ s.deleted = [(0, 7)] ∧
      s.executed = [(0, 7), (1, 8)] ∧ s.queueB = [9] ∧ s.shutdown = true)) (by decide)
  exact ⟨s, of_decide_eq_true hp, runs_once hs⟩

end Leano.PthreadPool
