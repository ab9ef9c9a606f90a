import Leano.PthreadPool.Discard
import Leano.PthreadPool.Idle
import Leano.PthreadPool.Joins
import Leano.Lib.Log

universe u v

namespace Leano.PthreadPool

open Leano.Lib

variable {n : Nat} {C : Type v} {M : Type u}

def WorkerPc.goesOn : WorkerPc M → Bool
  | .guard => true
  | .front => true
  | .unlock _ => true
  | .process _ => true
  | _ => false

/-- `pool_destory` is called when `start` has returned. -/
def AfterStart (s : Pool n C M) : Act n C M → Prop
  | .destory _ => s.start = .returned
  | _ => True

instance (s : Pool n C M) : (a : Act n C M) → Decidable (AfterStart s a)
  | .destory _ => inferInstanceAs (Decidable (s.start = .returned))
  | .start => isTrue trivial
  | .add _ _ => isTrue trivial
  | .client _ _ => isTrue trivial
  | .work _ => isTrue trivial
  | .spurious _ => isTrue trivial

def ClientPc.joinedBelow (n : Nat) : ClientPc M → Nat
  | .next i => i
  | .join i => i
  | .joined => n
  | _ => 0

structure JoinsInTurn (s : Pool n C M) : Prop where
  started : ∀ c, (s.client c).destroys = true → s.start = .returned
  count : s.start ≠ .fresh → s.maxThreadNum = n
  exited : ∀ c (w : Fin n), w < (s.client c).joinedBelow n → s.worker w = .exited

variable {debug : Bool} {s t : Pool n C M} {a : Act n C M} {c : C} {w : Fin n}

section

variable [DecidableEq C]

inductive Moves (s : Pool n C M) (a : Act n C M) (w : Fin n) (pc : WorkerPc M) : Prop
  | same : pc = s.worker w → Moves s a w pc
  | born : s.worker w = .unborn → pc = .lock → Moves s a w pc
  | woken : s.worker w = .blocked → pc = .woken → Moves s a w pc
  | own : a = .work w → Moves s a w pc

theorem moves_of_step (boot : Booting s) (hs : Step debug s a t) (w : Fin n) :
    Moves s a w (t.worker w) := by
  have wake : Moves s a w (s.worker w).wake := by
    cases hw : s.worker w with
    | blocked => exact .woken hw rfl
    | _ => exact .same hw.symm
  have own : ∀ {u : Fin n} {pc}, a = .work u → Moves s a w (Function.update s.worker u pc w) := by
    intro u pc ha
    by_cases hu : w = u
    · subst hu
      exact .own ha
    · exact .same (Function.update_of_ne hu _ _)
  have woken : ∀ {u : Fin n}, s.worker u = .blocked →
      Moves s a w (Function.update s.worker u .woken w) := by
    intro u blocked
    by_cases hu : w = u
    · subst hu
      exact .woken blocked (Function.update_self _ _ _)
    · exact .same (Function.update_of_ne hu _ _)
  cases hs with
  | @create i hi hs =>
    by_cases hw : w = ⟨i, hi⟩
    · subst hw
      exact .born (boot.unborn (by rw [hs]; exact le_rfl)) (Function.update_self _ _ _)
    · exact .same (Function.update_of_ne hw _ _)
  | signal _ hw => exact woken hw
  | spurious hw => exact woken hw
  | broadcast => exact wake
  | next => exact wake
  | acquire | empty | wait | proceed | check | unlockExit => exact own rfl
  | take | relock | fault | pop | unlock | process | delete => exact own rfl
  | _ => exact .same rfl

theorem exited_of_step (boot : Booting s) (hs : Step debug s a t) (hw : s.worker w = .exited) :
    t.worker w = .exited := by
  cases moves_of_step boot hs w with
  | same same => rwa [same]
  | born unborn => cases unborn.symm.trans hw
  | woken blocked => cases blocked.symm.trans hw
  | own ha =>
    subst ha
    cases hs with
    | acquire pc => rcases pc with pc | pc <;> cases pc.symm.trans hw
    | _ pc => cases pc.symm.trans hw

theorem executed_of_other (hs : Step debug s a t) (other : a ≠ .work w) :
    logOf t.executed w = logOf s.executed w := by
  cases hs with
  | @process u qMsg =>
    have apart : u ≠ w := fun same => other (congrArg _ same)
    simp [Pool.setWorker, logOf_single_of_ne apart]
  | _ => rfl

theorem executes_of_step (boot : Booting s) (down : s.shutdown = true) (hs : Step debug s a t)
    (w : Fin n) : ∃ more, logOf t.executed w = logOf s.executed w ++ more ∧
      more.length + (t.worker w).goesOn.toNat ≤ (s.worker w).goesOn.toNat := by
  have none : ∀ {pc}, logOf t.executed w = logOf s.executed w → t.worker w = pc →
      pc.goesOn.toNat ≤ (s.worker w).goesOn.toNat →
      ∃ more, logOf t.executed w = logOf s.executed w ++ more ∧
        more.length + (t.worker w).goesOn.toNat ≤ (s.worker w).goesOn.toNat := by
    intro pc same worker le
    exact ⟨[], by rw [same, List.append_nil], by rw [worker]; exact (Nat.zero_add _).trans_le le⟩
  by_cases own : a = .work w
  · subst own
    have moved : ∀ {pc}, Function.update s.worker w pc w = pc := Function.update_self _ _ _
    cases hs with
    | @process _ qMsg hw =>
      refine ⟨[qMsg], ?_, ?_⟩
      · simp [Pool.setWorker]
      · simp [Pool.setWorker, hw, WorkerPc.goesOn]
    | acquire => exact none rfl moved (Nat.zero_le _)
    | empty => exact none rfl moved (Nat.zero_le _)
    | wait => exact none rfl moved (Nat.zero_le _)
    | spin => exact none rfl rfl le_rfl
    | proceed => exact none rfl moved (Nat.zero_le _)
    | check =>
      rw [if_pos down] at none ⊢
      exact none rfl moved (Nat.zero_le _)
    | unlockExit => exact none rfl moved (Nat.zero_le _)
    | take hw => exact none rfl moved (by rw [hw]; exact le_rfl)
    | relock => exact none rfl moved (Nat.zero_le _)
    | fault => exact none rfl moved (Nat.zero_le _)
    | pop hw => exact none rfl moved (by rw [hw]; exact le_rfl)
    | unlock hw => exact none rfl moved (by rw [hw]; exact le_rfl)
    | delete => exact none rfl moved (Nat.zero_le _)
  · have same := executed_of_other hs own
    cases moves_of_step boot hs w with
    | same worker => exact none same worker le_rfl
    | born _ lock => exact none same lock (Nat.zero_le _)
    | woken _ woken => exact none same woken (Nat.zero_le _)
    | own ha => exact absurd ha own

end

section

variable [DecidableEq C] [DecidableEq M]

/-- Once `shutdown` is written each worker executes at most one task more, and that only if it was
past its test of `shutdown` already. -/
theorem one_task_more (h : Reach (step debug) Pool.init s) (started : s.start = .returned)
    (down : s.shutdown = true) (hr : Reach (step debug) s t) (w : Fin n) :
    ∃ more, logOf t.executed w = logOf s.executed w ++ more ∧
      more.length ≤ (s.worker w).goesOn.toNat := by
  suffices kept : (t.start = .returned ∧ t.shutdown = true) ∧
      ∃ more, logOf t.executed w = logOf s.executed w ++ more ∧
        more.length + (t.worker w).goesOn.toNat ≤ (s.worker w).goesOn.toNat by
    obtain ⟨-, more, log, few⟩ := kept
    exact ⟨more, log, (Nat.le_add_right _ _).trans few⟩
  refine hr.invariant (I := fun t => (t.start = .returned ∧ t.shutdown = true) ∧
    ∃ more, logOf t.executed w = logOf s.executed w ++ more ∧
      more.length + (t.worker w).goesOn.toNat ≤ (s.worker w).goesOn.toNat)
    ⟨⟨started, down⟩, [], (List.append_nil _).symm, (Nat.zero_add _).le⟩ ?_
  rintro u a v hu ⟨⟨started, down⟩, more, log, few⟩ - hs
  have boot := (reach_inOrder (h.trans hu)).booting
  obtain ⟨next, log', few'⟩ := executes_of_step boot down (step_cases hs) w
  refine ⟨⟨returned_of_step (step_cases hs) started,
    shutdown_of_step (step_cases hs) started down⟩, more ++ next, ?_, ?_⟩
  · rw [log', log, List.append_assoc]
  · rw [List.length_append]
    omega

theorem one_task_more_of_two : ∃ s t : Pool 1 (Fin 1) Nat,
    (s.shutdown = true ∧ s.executed = [] ∧ t.executed = [(0, 6)]) ∧
      ∃ more, logOf t.executed 0 = logOf s.executed 0 ++ more ∧
        more.length ≤ (s.worker 0).goesOn.toNat := by
  let add (m : Nat) : List (Act 1 (Fin 1) Nat) :=
    [.add 0 m, .client 0 none, .client 0 none, .client 0 none, .client 0 none, .client 0 none,
      .client 0 none]
  obtain ⟨s, hs, hp⟩ := exists_reach (step false) Pool.init
    ([.start, .start, .start, .start, .start] ++ add 6 ++ add 7 ++
      [.work 0, .work 0, .work 0, .destory 0, .client 0 none, .client 0 none])
    (fun s : Pool 1 (Fin 1) Nat =>
      decide ((s.start = .returned ∧ s.shutdown = true) ∧ s.executed = []) &&
      (runIf (step false) (fun _ _ => True) s [.work 0, .work 0, .work 0, .work 0]).any
        fun t : Pool 1 (Fin 1) Nat => decide (t.executed = [(0, 6)])) (by decide)
  obtain ⟨hp, later⟩ := Bool.and_eq_true_iff.mp hp
  obtain ⟨⟨started, down⟩, none⟩ := of_decide_eq_true hp
  obtain ⟨t, ht, more⟩ := exists_reach (step false) s _ _ later
  exact ⟨s, t, ⟨down, none, of_decide_eq_true more⟩, one_task_more hs started down ht 0⟩

end

namespace JoinsInTurn

variable [DecidableEq C]

theorem client (h : JoinsInTurn s) {pc : ClientPc M} (start : t.start = s.start)
    (maxThreadNum : t.maxThreadNum = s.maxThreadNum)
    (client : t.client = Function.update s.client c pc)
    (exits : ∀ w, s.worker w = .exited → t.worker w = .exited)
    (started : pc.destroys = true → s.start = .returned)
    (below : ∀ w : Fin n, w < pc.joinedBelow n → s.worker w = .exited) : JoinsInTurn t where
  started := by
    rw [client, start]
    exact forall_update (Q := fun pc : ClientPc M => pc.destroys = true → _) h.started started
  count := by
    rw [start, maxThreadNum]
    exact h.count
  exited := by
    rw [client]
    exact forall_update (Q := fun pc : ClientPc M =>
      ∀ w : Fin n, w < pc.joinedBelow n → t.worker w = .exited)
      (fun c w hw => exits w (h.exited c w hw)) fun w hw => exits w (below w hw)

omit [DecidableEq C] in
theorem other (h : JoinsInTurn s) (start : t.start = s.start)
    (maxThreadNum : t.maxThreadNum = s.maxThreadNum) (client : t.client = s.client)
    (exits : ∀ w, s.worker w = .exited → t.worker w = .exited) : JoinsInTurn t where
  started := by rw [client, start]; exact h.started
  count := by rw [start, maxThreadNum]; exact h.count
  exited := by
    rw [client]
    exact fun c w hw => exits w (h.exited c w hw)

omit [DecidableEq C] in
theorem early (h : JoinsInTurn s) (early : s.start ≠ .returned) (client : t.client = s.client)
    (count : t.maxThreadNum = n) : JoinsInTurn t := by
  have nobody : ∀ c, (t.client c).destroys = false := by
    intro c
    rw [client]
    exact Bool.eq_false_iff.mpr fun d => early (h.started c d)
  refine ⟨fun c d => ?_, fun _ => count, fun c w hw => ?_⟩
  · cases d.symm.trans (nobody c)
  · have none := nobody c
    cases hc : t.client c with
    | next | join | joined => rw [hc] at none; cases none
    | _ => rw [hc] at hw; cases hw

theorem step (h : JoinsInTurn s) (boot : Booting s) (ok : AfterStart s a)
    (hs : Step debug s a t) : JoinsInTurn t := by
  have exits : ∀ w, s.worker w = .exited → t.worker w = .exited :=
    fun w => exited_of_step boot hs
  have zero : ∀ {pc : ClientPc M} {P : Fin n → Prop}, pc.joinedBelow n = 0 →
      ∀ w : Fin n, w < pc.joinedBelow n → P w := by
    intro pc P none w hw
    rw [none] at hw
    cases hw
  cases hs with
  | call hs => exact h.early (by rw [hs]; simp) rfl rfl
  | reset hs => exact h.early (by rw [hs]; simp) rfl (h.count (by rw [hs]; simp))
  | clear hs => exact h.early (by rw [hs]; simp) rfl (h.count (by rw [hs]; simp))
  | create _ hs => exact h.early (by rw [hs]; simp) rfl (h.count (by rw [hs]; simp))
  | started hs => exact h.early (by rw [hs]; simp) rfl (h.count (by rw [hs]; simp))
  | add | acquireAdd | push | load | store | unlockAdd | signalNobody =>
    exact h.client rfl rfl rfl exits (fun d => by cases d) (zero rfl)
  | signal => exact h.client rfl rfl rfl exits (fun d => by cases d) (zero rfl)
  | destory => exact h.client rfl rfl rfl exits (fun _ => ok) (zero rfl)
  | testShutdown hc =>
    have mine := h.started _ (congrArg ClientPc.destroys hc)
    refine h.client rfl rfl rfl exits (fun _ => mine) (zero ?_)
    split <;> rfl
  | shut hc =>
    have mine := h.started _ (congrArg ClientPc.destroys hc)
    exact h.client rfl rfl rfl exits (fun _ => mine) (zero rfl)
  | broadcast hc =>
    have mine := h.started _ (congrArg ClientPc.destroys hc)
    exact h.client rfl rfl rfl exits (fun _ => mine) (zero rfl)
  | @next c wake i hc =>
    have mine := h.started _ (congrArg ClientPc.destroys hc)
    have below := h.exited c
    rw [hc] at below
    exact h.client rfl rfl rfl exits (fun _ => mine) below
  | @joined c wake i hc last =>
    have mine := h.started _ (congrArg ClientPc.destroys hc)
    have below := h.exited c
    rw [hc] at below
    rw [h.count (by rw [mine]; simp)] at last
    exact h.client rfl rfl rfl exits (fun _ => mine) fun w _ => below w (by
      exact w.isLt.trans_le (not_lt.mp last))
  | @join c wake i hi hc hw =>
    have mine := h.started _ (congrArg ClientPc.destroys hc)
    have below := h.exited c
    rw [hc] at below
    refine h.client rfl rfl rfl exits (fun _ => mine) fun w hlt => ?_
    rcases Nat.lt_succ_iff_lt_or_eq.mp hlt with lower | same
    · exact below w lower
    · rwa [show w = ⟨i, hi⟩ from Fin.ext same]
  | _ => exact h.other rfl rfl rfl exits

end JoinsInTurn

variable [DecidableEq C] [DecidableEq M]

theorem reach_joinsInTurn (h : ReachIf (step debug) AfterStart Pool.init s) : JoinsInTurn s := by
  refine h.invariant (I := JoinsInTurn) ⟨?_, ?_, ?_⟩ ?_
  · exact fun _ d => by cases d
  · exact fun late => absurd rfl late
  · exact fun _ _ hw => by cases hw
  · exact fun _ _ _ hr ih ok hs => ih.step (reach_inOrder hr.reach).booting ok (step_cases hs)

omit [DecidableEq C] [DecidableEq M] in
theorem discard_append (queueB : List M) :
    (discard 0 queueB).1 ++ (discard 0 queueB).2 = queueB := by
  rw [discard_eq, List.splitAt_eq]
  exact List.take_append_drop _ _

/-- When the workers have been joined: every task that was pushed was executed and deleted once by a
worker, is deleted by the loop that follows, or stays behind, as half of the rest does. -/
def AccountsFor (s : Pool n C M) : Prop :=
  (s.submitted : Multiset M) = tasks s.executed + (discard 0 s.queueB).1 + (discard 0 s.queueB).2 ∧
    tasks s.deleted = tasks s.executed ∧ s.submitted.Nodup ∧
    (discard 0 s.queueB).2.length = s.queueB.length / 2

/-- What `pool_destory` leaves behind. No worker is there any more when it has joined them all, nor
does one come back. -/
theorem all_accounted (h : ReachIf (step debug) AfterStart Pool.init s)
    (joined : s.client c = .joined) : AccountsFor s ∧
      ∀ t, Reach (step debug) s t → (∀ w, t.worker w = .exited) ∧ t.executed = s.executed := by
  have exited : ∀ w, s.worker w = .exited := by
    intro w
    apply (reach_joinsInTurn h).exited c w
    rw [joined]
    exact w.isLt
  have handled := reach_handled h.reach
  refine ⟨⟨?_, ?_, (reach_offered h.reach).once, ?_⟩, fun t hr => ?_⟩
  · obtain ⟨ch, hq⟩ := reach_represents h.reach
    have none : total WorkerPc.inHand s.worker = 0 :=
      total_eq_zero fun w => by rw [exited w]; rfl
    calc
      (s.submitted : Multiset M) = tasks s.dequeued + s.queueB := by
        rw [hq.law, ← Multiset.coe_add]
        rfl
      _ = tasks s.executed + s.queueB := by rw [handled.dequeued, none, zero_add]
      _ = tasks s.executed + (discard 0 s.queueB).1 + (discard 0 s.queueB).2 := by
        rw [add_assoc, Multiset.coe_add, discard_append]
  · have none : total WorkerPc.finishing s.worker = 0 :=
      total_eq_zero fun w => by rw [exited w]; rfl
    rw [handled.executed, none, zero_add]
  · rw [discard_eq, List.splitAt_eq, List.length_drop]
    omega
  · refine hr.invariant (I := fun t => (∀ w, t.worker w = .exited) ∧ t.executed = s.executed)
      ⟨exited, rfl⟩ ?_
    rintro u a v hu ⟨exited, same⟩ - hs
    have boot := (reach_inOrder (h.reach.trans hu)).booting
    refine ⟨fun w => exited_of_step boot (step_cases hs) (exited w), ?_⟩
    cases step_cases hs with
    | process hw => cases hw.symm.trans (exited _)
    | _ => exact same

theorem all_accounted_of_three : ∃ s : Pool 1 (Fin 1) Nat,
    (s.executed = [(0, 6)] ∧ discard 0 s.queueB = ([7], [8])) ∧ AccountsFor s ∧
      ∀ t, Reach (step false) s t → (∀ w, t.worker w = .exited) ∧ t.executed = s.executed := by
  let add (m : Nat) : List (Act 1 (Fin 1) Nat) :=
    [.add 0 m, .client 0 none, .client 0 none, .client 0 none, .client 0 none, .client 0 none,
      .client 0 none]
  obtain ⟨s, hs, hp⟩ := exists_reachIf (step false) AfterStart Pool.init
    ([.start, .start, .start, .start, .start] ++ add 6 ++ add 7 ++ add 8 ++
      [.work 0, .work 0, .work 0, .work 0, .destory 0, .client 0 none, .client 0 none,
        .client 0 none, .client 0 none, .work 0, .work 0, .work 0, .work 0, .work 0, .work 0,
        .work 0, .work 0, .client 0 none, .client 0 none])
    (fun s : Pool 1 (Fin 1) Nat => decide (s.client 0 = .joined ∧ s.executed = [(0, 6)] ∧
      discard 0 s.queueB = ([7], [8]))) (by decide)
  obtain ⟨joined, shown⟩ := of_decide_eq_true hp
  exact ⟨s, shown, all_accounted hs joined⟩

end Leano.PthreadPool
