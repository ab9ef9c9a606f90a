import Leano.ThreadPool.Workers
import Leano.SyncQueue.Order
import Leano.SyncQueue.Offers
import Mathlib.Algebra.Order.BigOperators.Group.Finset

universe u v

namespace Leano.ThreadPool

open Leano.Lib
open SyncQueue (OutOfTake)

variable {n : Nat} {C : Type v} {T : Type u} [Fintype C] [DecidableEq C]

def Pool.view (s : Pool n C T) (w : Fin n) : View T where
  pc := s.worker w
  phase := s.queue.threads (.inl w)
  taken := logOf s.queue.taken (.inl w)
  calls := logOf s.calls w
  dropped := logOf s.dropped w

/-- A worker whose `Take` came back without a task finds `m_running` cleared. -/
def Guarded (s : Pool n C T) : Act n C T → Prop
  | .work w _ => s.worker w = .test none → s.running = false
  | _ => True

instance [DecidableEq T] (s : Pool n C T) : (a : Act n C T) → Decidable (Guarded s a)
  | .work w _ => inferInstanceAs (Decidable (s.worker w = .test none → s.running = false))
  | .addData _ _ => .isTrue trivial
  | .pause _ => .isTrue trivial
  | .continues _ => .isTrue trivial
  | .stop _ => .isTrue trivial
  | .client _ => .isTrue trivial
  | .queue _ => .isTrue trivial

variable {s s' : Pool n C T} {a : Act n C T}

theorem queue_of_client {q : SyncQueue.State (Fin n ⊕ C) T} {c : C} (u : Fin n)
    (h : (∃ op, SyncQueue.step s.queue (.call (.inr c) op) = some q) ∨
      SyncQueue.step s.queue (.ret (.inr c)) = some q) :
    q.threads (.inl u) = s.queue.threads (.inl u) ∧ q.taken = s.queue.taken := by
  rcases h with ⟨op, h⟩ | h
  · obtain ⟨-, rfl⟩ := SyncQueue.eq_of_call h
    simp [SyncQueue.State.setThread]
  · obtain ⟨-, rfl⟩ := SyncQueue.eq_of_ret h
    simp [SyncQueue.State.setThread]

theorem queue_of_take {q : SyncQueue.State (Fin n ⊕ C) T} {w : Fin n}
    (h : SyncQueue.step s.queue (.call (.inl w) .take) = some q) :
    s.queue.threads (.inl w) = .idle ∧
      q.threads = Function.update s.queue.threads (.inl w) (.ready .take) ∧
      q.taken = s.queue.taken := by
  obtain ⟨idle, rfl⟩ := SyncQueue.eq_of_call h
  simp [SyncQueue.State.setThread, idle]

theorem queue_of_ret {q : SyncQueue.State (Fin n ⊕ C) T} {w : Fin n}
    (h : SyncQueue.step s.queue (.ret (.inl w)) = some q) :
    q.threads = Function.update s.queue.threads (.inl w) .idle ∧ q.taken = s.queue.taken := by
  obtain ⟨-, rfl⟩ := SyncQueue.eq_of_ret h
  simp [SyncQueue.State.setThread]

theorem view_of_other {w u : Fin n} {ret : SigwaitRet} (hu : u ≠ w)
    (h : Step s (.work w ret) s') : s'.view u = s.view u := by
  have hlog : ∀ {V : Type u} (v : V), logOf [(w, v)] u = [] := logOf_single_of_ne (Ne.symm hu)
  cases h with
  | enterTake _ _ hq =>
    obtain ⟨-, ht, hl⟩ := queue_of_take hq
    simp [Pool.view, Pool.setWorker, hu, ht, hl]
  | signalled _ _ hq =>
    obtain ⟨-, ht, hl⟩ := queue_of_take hq
    simp [Pool.view, Pool.setWorker, hu, ht, hl]
  | take _ _ hq =>
    obtain ⟨ht, hl⟩ := queue_of_ret hq
    simp [Pool.view, Pool.setWorker, hu, ht, hl]
  | @drop _ _ task => cases task <;> simp [Pool.view, Pool.drop, Pool.setWorker, hu, hlog]
  | process => simp [Pool.view, Pool.setWorker, hu, hlog]
  | _ => simp [Pool.view, Pool.setWorker, hu]

omit [Fintype C] in
theorem view_setWorker (s : Pool n C T) (w : Fin n) (pc : WorkerPc T) :
    (s.setWorker w pc).view w = { s.view w with pc := pc } := by
  simp [Pool.view, Pool.setWorker]

theorem view_enterTake {w : Fin n} {q : SyncQueue.State (Fin n ⊕ C) T}
    (hq : SyncQueue.step s.queue (.call (.inl w) .take) = some q) :
    (s.view w).phase = .idle ∧
      { s.setWorker w .take with queue := q }.view w =
        { s.view w with pc := .take, phase := .ready .take } := by
  obtain ⟨idle, ht, hl⟩ := queue_of_take hq
  refine ⟨idle, ?_⟩
  simp [Pool.view, Pool.setWorker, ht, hl]

theorem view_of_self {w : Fin n} {ret : SigwaitRet} (h : Step s (.work w ret) s') :
    View.Step (Guarded s (.work w ret)) (s.view w) (s'.view w) := by
  have outside : ∀ {pc}, s.worker w = pc → pc.outside = true → (s.view w).pc.outside = true := by
    rintro _ rfl ho
    exact ho
  cases h with
  | loop hw =>
    rw [view_setWorker]
    apply View.Step.move (outside hw rfl)
    cases s.running <;> simp [WorkerPc.outside]
  | check hw =>
    rw [view_setWorker]
    exact .move (outside hw rfl) (.inl rfl)
  | enterTake hw _ hq =>
    obtain ⟨idle, hv⟩ := view_enterTake hq
    rw [hv]
    exact .enterTake (outside hw rfl) idle
  | signalled hw _ hq =>
    obtain ⟨idle, hv⟩ := view_enterTake hq
    exact hv ▸ .enterTake (outside hw rfl) idle
  | interrupted hw =>
    rw [view_setWorker]
    exact .move (outside hw rfl) (.inl rfl)
  | failed hw =>
    have hv := view_setWorker s w .exited
    exact hv ▸ .move (outside hw rfl) (.inr rfl)
  | @take _ _ task q hw hph hq =>
    obtain ⟨ht, hl⟩ := queue_of_ret hq
    have hv : { s.setWorker w (.test task) with queue := q }.view w =
        { s.view w with pc := .test task, phase := .idle } := by
      simp [Pool.view, Pool.setWorker, ht, hl]
    rw [hv]
    exact .take hw hph
  | test hw run =>
    rw [view_setWorker]
    apply View.Step.test hw
    rintro guarded rfl
    simp [guarded hw] at run
  | @drop _ _ task hw =>
    have hv : (s.drop w task).view w =
        { s.view w with pc := .exited, dropped := (s.view w).dropped ++ task.toList } := by
      cases task <;> simp [Pool.drop, Pool.view, Pool.setWorker]
    rw [hv]
    exact .drop hw
  | @process _ _ task hw =>
    have hv : { s.setWorker w .loop with calls := s.calls ++ [(w, task)] }.view w =
        { s.view w with pc := .loop, calls := (s.view w).calls ++ [task] } := by
      simp [Pool.view, Pool.setWorker]
    rw [hv]
    exact .process hw

theorem view_of_step (h : Step s a s') (u : Fin n) :
    View.Step (Guarded s a) (s.view u) (s'.view u) := by
  have quiet : s'.view u = s.view u → View.Step (Guarded s a) (s.view u) (s'.view u) :=
    fun same => same ▸ .same
  cases a with
  | work w ret =>
    by_cases hu : u = w
    · subst hu
      exact view_of_self h
    · exact quiet (view_of_other hu h)
  | queue a =>
    cases h with
    | @queue _ q inner hq =>
      obtain ⟨gained, he, hl⟩ :=
        SyncQueue.evolves_of_step (SyncQueue.step_cases hq) inner (.inl u)
      have hv : { s with queue := q }.view u =
          { s.view u with
            phase := q.threads (.inl u), taken := (s.view u).taken ++ gained } := by
        simp [Pool.view, hl]
      rw [hv]
      exact .evolve he
  | addData c x =>
    cases h with
    | addData _ hq =>
      obtain ⟨ht, hl⟩ := queue_of_client u (.inl ⟨_, hq⟩)
      exact quiet (by simp [Pool.view, Pool.setClient, ht, hl])
  | stop c =>
    cases h with
    | stop _ _ hq =>
      obtain ⟨ht, hl⟩ := queue_of_client u (.inl ⟨_, hq⟩)
      exact quiet (by simp [Pool.view, Pool.setClient, ht, hl])
    | stopAgain => exact quiet rfl
  | client c =>
    cases h with
    | addDataDone _ hq =>
      obtain ⟨ht, hl⟩ := queue_of_client u (.inr hq)
      exact quiet (by simp [Pool.view, Pool.setClient, ht, hl])
    | stopQueue _ hq =>
      obtain ⟨ht, hl⟩ := queue_of_client u (.inr hq)
      exact quiet (by simp [Pool.view, Pool.setClient, ht, hl])
    | _ => exact quiet rfl
  | _ =>
    cases h
    exact quiet rfl

omit [Fintype C] [DecidableEq C] in
theorem drop_queue (s : Pool n C T) (w : Fin n) (task : Option T) :
    (s.drop w task).queue = s.queue := by
  cases task <;> rfl

theorem queue_of_step (h : Step s a s') :
    s'.queue = s.queue ∨ ∃ b, SyncQueue.step s.queue b = some s'.queue := by
  cases h with
  | addData _ hq => exact .inr ⟨_, hq⟩
  | stop _ _ hq => exact .inr ⟨_, hq⟩
  | addDataDone _ hq => exact .inr ⟨_, hq⟩
  | stopQueue _ hq => exact .inr ⟨_, hq⟩
  | enterTake _ _ hq => exact .inr ⟨_, hq⟩
  | signalled _ _ hq => exact .inr ⟨_, hq⟩
  | take _ _ hq => exact .inr ⟨_, hq⟩
  | queue _ hq => exact .inr ⟨_, hq⟩
  | drop => exact .inl (drop_queue _ _ _)
  | _ => exact .inl rfl

variable {ok : Pool n C T → Act n C T → Prop}

theorem reach_queue (h : ReachIf step ok Pool.init s) :
    Reach SyncQueue.step (SyncQueue.State.init maxTaskCount) s.queue :=
  h.map Pool.queue fun _ _ _ _ hs => queue_of_step (step_cases hs)

theorem reach_accounted (h : ReachIf step ok Pool.init s) (w : Fin n) : (s.view w).Accounted := by
  refine h.invariant (I := fun s => (s.view w).Accounted) ⟨rfl, rfl, rfl⟩ ?_
  intro s a s' _ ih _ hs
  exact ih.step (view_of_step (step_cases hs) w)

theorem reach_genuine (h : ReachIf step Guarded (Pool.init : Pool n C T) s) (w : Fin n) :
    (s.view w).Genuine := by
  refine h.invariant (I := fun s => (s.view w).Genuine) ⟨nofun, nofun⟩ ?_
  intro s a s' _ ih ok hs
  exact ih.step ok (view_of_step (step_cases hs) w)

/-- The calls of `_pfun` by each worker are the tasks it has taken, in that order, up to the one it
is about to process, and all tasks processed were added. -/
def NoPhantom (s : Pool n C T) : Prop :=
  (∀ w, ∃ rest, (logOf s.queue.taken (.inl w)).map some = logOf s.calls w ++ rest ∧
    rest.length ≤ 1) ∧
  (s.calls.map Prod.snd : Multiset (Option T)) ≤ (s.queue.offered.map some : Multiset (Option T))

theorem coe_calls_le (h : ∀ w, (s.view w).Accounted) (genuine : ∀ w, (s.view w).Genuine) :
    (s.calls.map Prod.snd : Multiset (Option T)) ≤
      (s.queue.handedOut.map some : List (Option T)) := by
  have each : ∀ w, (logOf s.calls w : Multiset (Option T)) ≤
      ((logOf s.queue.taken (.inl w) : Multiset T).map some) := by
    intro w
    obtain ⟨rest, hrest, -⟩ := (genuine w).calls_first (h w)
    have : (logOf s.queue.taken (.inl w)).map some = logOf s.calls w ++ rest := hrest
    rw [Multiset.map_coe, this, ← Multiset.coe_add]
    exact Multiset.le_add_right _ _
  calc
    (s.calls.map Prod.snd : Multiset (Option T)) = ∑ w, (logOf s.calls w : Multiset (Option T)) :=
      coe_map_snd _
    _ ≤ ∑ w, (logOf s.queue.taken (.inl w) : Multiset T).map some :=
      Finset.sum_le_sum fun w _ => each w
    _ ≤ ∑ k : Fin n ⊕ C, (logOf s.queue.taken k : Multiset T).map some := by
      rw [Fintype.sum_sum_type]
      exact Multiset.le_add_right _ _
    _ = (∑ k, (logOf s.queue.taken k : Multiset T)).map some :=
      (map_sum (Multiset.mapAddMonoidHom some) (fun k => (logOf s.queue.taken k : Multiset T))
        Finset.univ).symm
    _ = (s.queue.handedOut.map some : List (Option T)) := by
      rw [← coe_map_snd]
      rfl

/-- In a run that keeps the guard no worker processes a task it did not take. -/
theorem no_phantom (h : ReachIf step Guarded (Pool.init : Pool n C T) s) : NoPhantom s := by
  have accounted := reach_accounted h
  have genuine := reach_genuine h
  refine ⟨fun w => (genuine w).calls_first (accounted w), (coe_calls_le accounted genuine).trans ?_⟩
  obtain ⟨c, -, hc⟩ := SyncQueue.reach_represents (reach_queue h)
  have taken : (s.queue.handedOut : Multiset T) ≤ s.queue.enqueued := by
    rw [hc.law, ← Multiset.coe_add]
    exact Multiset.le_add_right _ _
  exact Multiset.map_le_map (taken.trans (SyncQueue.reach_enqueued_le (reach_queue h)))

theorem no_phantom_of_one :
    ∃ s : Pool 1 (Fin 1) Nat, (s.calls = [(0, some 7)] ∧ s.worker 0 = .exited) ∧ NoPhantom s := by
  obtain ⟨s, hs, hp⟩ := exists_reachIf step Guarded Pool.init
    [.addData 0 7, .queue (.run (.inr 0) none), .client 0, .work 0 .zero, .work 0 .zero,
      .queue (.run (.inl 0) none), .work 0 .zero, .work 0 .zero, .work 0 .zero, .work 0 .zero,
      .work 0 .zero, .queue (.run (.inl 0) none), .stop 0, .queue (.run (.inr 0) none),
      .queue (.run (.inr 0) none), .queue (.run (.inr 0) none), .client 0, .client 0,
      .queue (.run (.inl 0) none), .work 0 .zero, .work 0 .zero]
    (fun s : Pool 1 (Fin 1) Nat => decide (s.calls = [(0, some 7)] ∧ s.worker 0 = .exited))
    (by decide)
  exact ⟨s, of_decide_eq_true hp, no_phantom hs⟩

/-- Nobody adds a task, and a stop that has reached the queue but not `m_running` yet lets the
worker call `_pfun` all the same. -/
theorem phantom_of_stop :
    ¬ ∀ s : Pool 1 (Fin 1) Nat, Reach step Pool.init s → NoPhantom s := by
  intro all
  obtain ⟨s, hs, hp⟩ := exists_reach step Pool.init
    [.work 0 .zero, .work 0 .zero, .queue (.run (.inl 0) none), .stop 0,
      .queue (.run (.inr 0) none), .queue (.run (.inr 0) none), .queue (.run (.inr 0) none),
      .queue (.run (.inl 0) none), .work 0 .zero, .work 0 .zero, .work 0 .zero]
    (fun s : Pool 1 (Fin 1) Nat => decide (s.calls = [(0, none)] ∧ s.queue.offered = []))
    (by decide)
  obtain ⟨calls, offered⟩ := of_decide_eq_true hp
  have contained := (all s hs).2
  rw [calls, offered] at contained
  exact absurd (Multiset.card_le_card contained) (by decide)

end Leano.ThreadPool
