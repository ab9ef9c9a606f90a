import Leano.ThreadPool.Tasks
import Mathlib.Tactic.Abel

universe u v

namespace Leano.ThreadPool

open Leano.Lib
open SyncQueue (OutOfTake)

variable {n : Nat} {C : Type v} {T : Type u}

def ClientPc.stage : ClientPc n → Option (Option (List (Fin n)))
  | .stopQueue => some none
  | .stopFlag => some none
  | .join rest => some (some rest)
  | _ => none

def ExitedBut (s : Pool n C T) (left : Option (List (Fin n))) : Prop :=
  ∀ rest, left = some rest → ∀ w, s.worker w = .exited ∨ w ∈ rest

theorem exitedBut_none (s : Pool n C T) : ExitedBut s none := fun _ hr => nomatch hr

/-- Client `c`, and nobody else, is stopping the pool. -/
structure StopsPool (s : Pool n C T) (c : C) (left : Option (List (Fin n))) : Prop where
  once : s.once = .active
  group : s.threadgroup = List.finRange n
  stage : (s.client c).stage = some left
  others : ∀ c', c' ≠ c → (s.client c').stage = none
  exited : ExitedBut s left

inductive Stopping (s : Pool n C T) : Prop
  | fresh : s.once = .fresh → s.threadgroup = List.finRange n →
      (∀ c, (s.client c).stage = none) → Stopping s
  | active {c left} : StopsPool s c left → Stopping s
  | done : s.once = .done → (∀ c, (s.client c).stage = none) → (∀ w, s.worker w = .exited) →
      Stopping s

namespace Stopping

variable {s s' : Pool n C T} {c : C} {left : Option (List (Fin n))}

theorem stopsPool (h : Stopping s) (hc : (s.client c).stage = some left) : StopsPool s c left := by
  cases h with
  | fresh _ _ none => cases (none c).symm.trans hc
  | @active c' left' hs =>
    by_cases same : c = c'
    · subst same
      cases hs.stage.symm.trans hc
      exact hs
    · cases (hs.others c same).symm.trans hc
  | done _ none => cases (none c).symm.trans hc

theorem quiet (h : Stopping s) (stage : ∀ c, (s'.client c).stage = (s.client c).stage)
    (once : s'.once = s.once) (group : s'.threadgroup = s.threadgroup)
    (exits : ∀ w, s.worker w = .exited → s'.worker w = .exited) : Stopping s' := by
  cases h with
  | fresh fresh all none =>
    exact .fresh (once.trans fresh) (group.trans all) fun c => (stage c).trans (none c)
  | @active c _ hs =>
    exact .active
      { once := once.trans hs.once
        group := group.trans hs.group
        stage := (stage c).trans hs.stage
        others := fun c' hc' => (stage c').trans (hs.others c' hc')
        exited := fun rest hr w => (hs.exited rest hr w).imp_left (exits w) }
  | done done none exited =>
    exact .done (once.trans done) (fun c => (stage c).trans (none c)) fun w => exits w (exited w)

end Stopping

variable [DecidableEq C] {s s' : Pool n C T} {a : Act n C T}

theorem StopsPool.move {c : C} {left left' : Option (List (Fin n))} (h : StopsPool s c left)
    (pc : ClientPc n) (hpc : pc.stage = some left') (once : s'.once = s.once)
    (group : s'.threadgroup = s.threadgroup) (client : s'.client = Function.update s.client c pc)
    (exited : ExitedBut s' left') : StopsPool s' c left' where
  once := once.trans h.once
  group := group.trans h.group
  stage := by rw [client, Function.update_self, hpc]
  others := fun c' hc' => by
    rw [client, Function.update_of_ne hc']
    exact h.others c' hc'
  exited := exited

variable [Fintype C]

theorem Stopping.step (h : Stopping s) (hs : Step s a s') : Stopping s' := by
  have exits : ∀ w, s.worker w = .exited → s'.worker w = .exited :=
    fun w => (view_of_step hs w).exited
  have quiet : ∀ {c pc}, s'.client = Function.update s.client c pc →
      pc.stage = (s.client c).stage → s'.once = s.once → s'.threadgroup = s.threadgroup →
      Stopping s' := by
    intro c pc client stage once group
    refine h.quiet (fun c' => ?_) once group exits
    rw [client]
    exact apply_update_eq (f := ClientPc.stage) stage c'
  cases hs with
  | @stop c q hc fresh _ =>
    cases h with
    | fresh _ group none =>
      refine .active (c := c) ⟨rfl, group, ?_, ?_, exitedBut_none _⟩
      · simp [Pool.setClient, ClientPc.stage]
      · intro c' hc'
        simpa [Pool.setClient, hc'] using none c'
    | active hs => cases fresh.symm.trans hs.once
    | done done => cases fresh.symm.trans done
  | @stopQueue c q hc =>
    have stops := h.stopsPool (congrArg ClientPc.stage hc)
    exact .active (stops.move .stopFlag rfl rfl rfl rfl (exitedBut_none _))
  | @stopFlag c hc =>
    have stops := h.stopsPool (congrArg ClientPc.stage hc)
    refine .active (stops.move (.join s.threadgroup) rfl rfl rfl rfl ?_)
    rintro rest hr w
    cases hr
    exact .inr (stops.group ▸ List.mem_finRange w)
  | @joinNext c w rest hc hw =>
    have stops := h.stopsPool (congrArg ClientPc.stage hc)
    refine .active (stops.move (.join rest) rfl rfl rfl rfl ?_)
    rintro _ ⟨⟩ u
    rcases stops.exited _ rfl u with hu | hu
    · exact .inl hu
    · rcases List.mem_cons.mp hu with rfl | hu
      · exact .inl hw
      · exact .inr hu
  | @joinDone c hc =>
    have stops := h.stopsPool (congrArg ClientPc.stage hc)
    refine .done rfl (fun c' => ?_) fun w => ?_
    · by_cases same : c' = c
      · simp [Pool.setClient, same, ClientPc.stage]
      · simpa [Pool.setClient, same] using stops.others c' same
    · exact (stops.exited _ rfl w).resolve_right List.not_mem_nil
  | addData hc => exact quiet rfl (by rw [hc]; rfl) rfl rfl
  | pause hc => exact quiet rfl (by rw [hc]; rfl) rfl rfl
  | continues hc => exact quiet rfl (by rw [hc]; rfl) rfl rfl
  | stopAgain hc => exact quiet rfl (by rw [hc]; rfl) rfl rfl
  | addDataDone hc => exact quiet rfl (by rw [hc]; rfl) rfl rfl
  | pauseDone hc => exact quiet rfl (by rw [hc]; rfl) rfl rfl
  | pauseNext hc => exact quiet rfl (by rw [hc]; rfl) rfl rfl
  | killDone hc => exact quiet rfl (by rw [hc]; rfl) rfl rfl
  | killNext hc => exact quiet rfl (by rw [hc]; rfl) rfl rfl
  | clear hc => exact quiet rfl (by rw [hc]; rfl) rfl rfl
  | stopWait hc => exact quiet rfl (by rw [hc]; rfl) rfl rfl
  | @drop w _ task => cases task <;> exact h.quiet (fun _ => rfl) rfl rfl exits
  | _ => exact h.quiet (fun _ => rfl) rfl rfl exits

theorem reach_stopping (h : Reach step Pool.init s) : Stopping s := by
  refine h.invariant (I := Stopping) (.fresh rfl rfl fun _ => rfl) ?_
  intro s a s' _ ih _ hs
  exact ih.step (step_cases hs)

def OnlyWorkersTake (s : Pool n C T) : Prop :=
  ∀ c, OutOfTake (s.queue.threads (.inr c)) ∧ logOf s.queue.taken (.inr c) = []

theorem OnlyWorkersTake.call {q : SyncQueue.State (Fin n ⊕ C) T} {c : C} {op : SyncQueue.Op T}
    (h : OnlyWorkersTake s) (out : op ≠ .take ∧ op ≠ .takeList)
    (hq : SyncQueue.step s.queue (.call (.inr c) op) = some q) (u : C) :
    OutOfTake (q.threads (.inr u)) ∧ logOf q.taken (.inr u) = [] := by
  obtain ⟨-, rfl⟩ := SyncQueue.eq_of_call hq
  refine ⟨?_, by simpa [SyncQueue.State.setThread] using (h u).2⟩
  by_cases hu : u = c
  · subst hu
    simpa [SyncQueue.State.setThread, OutOfTake, Phase.op?] using out
  · simpa [SyncQueue.State.setThread, hu] using (h u).1

theorem OnlyWorkersTake.ret {q : SyncQueue.State (Fin n ⊕ C) T} {c : C} (h : OnlyWorkersTake s)
    (hq : SyncQueue.step s.queue (.ret (.inr c)) = some q) (u : C) :
    OutOfTake (q.threads (.inr u)) ∧ logOf q.taken (.inr u) = [] := by
  obtain ⟨-, rfl⟩ := SyncQueue.eq_of_ret hq
  refine ⟨?_, by simpa [SyncQueue.State.setThread] using (h u).2⟩
  by_cases hu : u = c
  · subst hu
    simp [SyncQueue.State.setThread, OutOfTake, Phase.op?]
  · simpa [SyncQueue.State.setThread, hu] using (h u).1

theorem OnlyWorkersTake.step (h : OnlyWorkersTake s) (hs : Step s a s') : OnlyWorkersTake s' := by
  cases hs with
  | addData _ hq => exact h.call (by simp) hq
  | stop _ _ hq => exact h.call (by simp) hq
  | addDataDone _ hq => exact h.ret hq
  | stopQueue _ hq => exact h.ret hq
  | enterTake _ _ hq =>
    obtain ⟨-, ht, hl⟩ := queue_of_take hq
    intro c
    simpa [ht, hl] using h c
  | signalled _ _ hq =>
    obtain ⟨-, ht, hl⟩ := queue_of_take hq
    intro c
    simpa [ht, hl] using h c
  | take _ _ hq =>
    obtain ⟨ht, hl⟩ := queue_of_ret hq
    intro c
    simpa [ht, hl] using h c
  | queue inner hq =>
    intro c
    obtain ⟨gained, he, hl⟩ :=
      SyncQueue.evolves_of_step (SyncQueue.step_cases hq) inner (.inr c)
    obtain ⟨out, rfl⟩ := he.outOfTake (h c).1
    exact ⟨out, by simpa [hl] using (h c).2⟩
  | @drop w _ task => cases task <;> exact h
  | _ => exact h

theorem reach_onlyWorkersTake (h : Reach step Pool.init s) : OnlyWorkersTake s := by
  refine h.invariant (I := OnlyWorkersTake) ?_ fun s a s' _ ih _ hs => ih.step (step_cases hs)
  intro c
  exact ⟨⟨nofun, nofun⟩, rfl⟩

def DropsStopped (s : Pool n C T) : Prop := s.dropped ≠ [] → s.running = false

theorem DropsStopped.step (h : DropsStopped s) (hs : Step s a s') : DropsStopped s' := by
  cases hs with
  | stopFlag => exact fun _ => rfl
  | failed => exact fun _ => rfl
  | @drop w _ task _ stopped => cases task <;> exact fun _ => stopped
  | _ => exact h

def Pool.processed (s : Pool n C T) : Multiset T := (s.calls.filterMap Prod.snd : List T)

def Pool.inTransit (s : Pool n C T) : Multiset T :=
  ∑ w, (((s.worker w).inHand ++ SyncQueue.inHand (s.queue.threads (.inl w)) : List T) : Multiset T)

omit [DecidableEq C] [Fintype C] in
theorem processed_eq (s : Pool n C T) :
    s.processed = ∑ w, (((logOf s.calls w).filterMap id : List T) : Multiset T) := by
  let real : Multiset (Option T) →+ Multiset T :=
    ⟨⟨Multiset.filterMap id, rfl⟩, Multiset.filterMap_add id⟩
  calc
    s.processed =
        ((s.calls.map Prod.snd : List (Option T)) : Multiset (Option T)).filterMap id := by
      simp [Pool.processed, List.filterMap_map]
    _ = real (∑ w, (logOf s.calls w : Multiset (Option T))) := by
      rw [coe_map_snd]
      rfl
    _ = ∑ w, (((logOf s.calls w).filterMap id : List T) : Multiset T) := map_sum real _ _

/-- No task is lost or duplicated: those enqueued are in the queue, on their way, processed or
given up. -/
theorem reach_conserved (h : Reach step Pool.init s) :
    (s.queue.enqueued : Multiset T) =
      s.queue.q.queue + s.inTransit + s.processed + (s.dropped.map Prod.snd : List T) := by
  have clients : ∑ c, (logOf s.queue.taken (.inr c) : Multiset T) = 0 :=
    Finset.sum_eq_zero fun c _ => by rw [(reach_onlyWorkersTake h c).2]; rfl
  have workers : ∑ w, (logOf s.queue.taken (.inl w) : Multiset T) =
      s.processed + (s.dropped.map Prod.snd : List T) + s.inTransit := by
    rw [processed_eq, coe_map_snd s.dropped, Pool.inTransit, ← Finset.sum_add_distrib,
      ← Finset.sum_add_distrib]
    refine Finset.sum_congr rfl fun w _ => ?_
    rw [show logOf s.queue.taken (.inl w) = _ from (reach_accounted h w).law]
    simp [Pool.view]
  have taken : (s.queue.handedOut : Multiset T) =
      s.processed + (s.dropped.map Prod.snd : List T) + s.inTransit := by
    rw [SyncQueue.State.handedOut, coe_map_snd, Fintype.sum_sum_type, clients, workers, add_zero]
  obtain ⟨c, -, hc⟩ := SyncQueue.reach_represents (reach_queue h)
  rw [hc.law, ← Multiset.coe_add, taken]
  abel

theorem inTransit_of_done (h : Reach step Pool.init s) (stopped : s.once = .done) :
    s.inTransit = 0 := by
  have exited : ∀ w, s.worker w = .exited := by
    cases reach_stopping h with
    | fresh fresh => cases fresh.symm.trans stopped
    | active hs => cases hs.once.symm.trans stopped
    | done _ _ exited => exact exited
  apply Finset.sum_eq_zero
  intro w _
  have placed : (s.view w).Placed := (reach_accounted h w).placed
  have idle : s.queue.threads (.inl w) = .idle := by
    unfold View.Placed at placed
    rwa [show (s.view w).pc = .exited from exited w] at placed
  rw [exited w, idle]
  rfl

/-- Once `Stop` has returned each task enqueued is still queued, was processed once, or was given
up by a worker that found `m_running` cleared and exited. -/
theorem accounts_for_every_task (h : Reach step Pool.init s) (stopped : s.once = .done) :
    (s.queue.enqueued : Multiset T) =
      s.queue.q.queue + s.processed + (s.dropped.map Prod.snd : List T) ∧
    (∀ w, (logOf s.dropped w).length ≤ 1) ∧
    (s.dropped ≠ [] → s.running = false) := by
  refine ⟨?_, fun w => ?_, ?_⟩
  · have conserved := reach_conserved h
    rwa [inTransit_of_done h stopped, add_zero] at conserved
  · have rest := (reach_accounted h w).rest
    rw [List.append_assoc, List.length_append] at rest
    exact (Nat.le_add_right _ _).trans rest
  · refine h.invariant (I := DropsStopped) (fun some => absurd rfl some) ?_
    intro s a s' _ ih _ hs
    exact ih.step (step_cases hs)

theorem accounts_for_every_task_of_two :
    ∃ s : Pool 1 (Fin 1) Nat, (s.once = .done ∧ s.processed = {7} ∧ s.queue.q.queue = [8]) ∧
      (s.queue.enqueued : Multiset Nat) =
        s.queue.q.queue + s.processed + (s.dropped.map Prod.snd : List Nat) ∧
      (∀ w, (logOf s.dropped w).length ≤ 1) ∧
      (s.dropped ≠ [] → s.running = false) := by
  obtain ⟨s, hs, hp⟩ := exists_reach step Pool.init
    [.addData 0 7, .queue (.run (.inr 0) none), .client 0, .work 0 .zero, .work 0 .zero,
      .queue (.run (.inl 0) none), .work 0 .zero, .work 0 .zero, .work 0 .zero,
      .addData 0 8, .queue (.run (.inr 0) none), .client 0, .stop 0,
      .queue (.run (.inr 0) none), .queue (.run (.inr 0) none), .queue (.run (.inr 0) none),
      .client 0, .client 0, .work 0 .zero, .client 0, .client 0]
    (fun s : Pool 1 (Fin 1) Nat => decide (s.once = .done ∧ s.processed = {7} ∧
      s.queue.q.queue = [8])) (by decide)
  have final := of_decide_eq_true hp
  exact ⟨s, final, accounts_for_every_task hs final.1⟩

/-- A worker that has removed a task loses it when the stop gets to `m_running` first. -/
theorem task_lost_to_stop :
    ¬ ∀ s : Pool 1 (Fin 1) Nat, Reach step Pool.init s → s.once = .done →
      (s.queue.enqueued : Multiset Nat) = s.queue.q.queue + s.processed := by
  intro all
  obtain ⟨s, hs, hp⟩ := exists_reach step Pool.init
    [.addData 0 7, .queue (.run (.inr 0) none), .client 0, .work 0 .zero, .work 0 .zero,
      .queue (.run (.inl 0) none), .work 0 .zero, .stop 0, .queue (.run (.inr 0) none),
      .queue (.run (.inr 0) none), .queue (.run (.inr 0) none), .client 0, .client 0,
      .work 0 .zero, .client 0, .client 0]
    (fun s : Pool 1 (Fin 1) Nat => decide (s.once = .done ∧ s.queue.enqueued = [7] ∧
      s.queue.q.queue = [] ∧ s.calls = [])) (by decide)
  obtain ⟨done, enqueued, queue, calls⟩ := of_decide_eq_true hp
  have kept := all s hs done
  rw [enqueued, queue, Pool.processed, calls] at kept
  exact absurd kept (by decide)

end Leano.ThreadPool
