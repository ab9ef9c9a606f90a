import Leano.ThreadPool.Signals
import Leano.SyncQueue.Stopped

universe u v

namespace Leano.ThreadPool

open Leano.Lib
open SyncQueue (Released released_of_returned)

variable {n : Nat} {C : Type v} {T : Type u}

def ClientPc.stopRank : ClientPc n → Nat
  | .stopQueue => 1
  | .stopFlag => 2
  | .join _ => 3
  | _ => 0

def FlagsAwake (s : Pool n C T) (c : C) : Prop :=
  s.client c = .stopFlag → ∀ w, s.isParked w = false

def ChecksAwake (s : Pool n C T) (w : Fin n) : Prop :=
  s.worker w = .check → (∃ c, (s.client c).stopRank = 3) → s.waitsig w = true →
    s.sigusr1 w = true

def StopsAwake (s : Pool n C T) (a : Act n C T) : Prop :=
  a.OfClient (FlagsAwake s) ∧ a.OfWorker (ChecksAwake s)

section

variable [Fintype C] [DecidableEq T]

instance (s : Pool n C T) : DecidablePred (FlagsAwake s) := fun _ =>
  inferInstanceAs (Decidable (_ → ∀ w, s.isParked w = false))

instance (s : Pool n C T) : DecidablePred (ChecksAwake s) := fun _ =>
  inferInstanceAs (Decidable (_ → (∃ c, (s.client c).stopRank = 3) → _ → _))

instance (s : Pool n C T) (a : Act n C T) : Decidable (StopsAwake s a) :=
  inferInstanceAs (Decidable (_ ∧ _))

end

theorem stopQueue_of_stopRank {pc : ClientPc n} (h : pc.stopRank = 1) : pc = .stopQueue := by
  cases pc <;> first | rfl | cases h

theorem stopFlag_of_stopRank {pc : ClientPc n} (h : pc.stopRank = 2) : pc = .stopFlag := by
  cases pc <;> first | rfl | cases h

variable [Fintype C] [DecidableEq C] {s s' : Pool n C T} {a : Act n C T} {c : C}

theorem stopRank_of_step (hs : Step s a s') (c : C) :
    (s'.client c).stopRank ≤ (s.client c).stopRank ∨ (s'.client c).stopRank ≤ 1 ∨
      (a = .client c ∧ (s'.client c).stopRank = (s.client c).stopRank + 1) := by
  have apart : ∀ {d : C} {pc : ClientPc n}, c ≠ d →
      (Function.update s.client d pc c).stopRank ≤ (s.client c).stopRank := by
    intro d pc hd
    rw [Function.update_of_ne hd]
  have back : ∀ {d : C} {pc : ClientPc n}, pc.stopRank ≤ (s.client d).stopRank →
      (Function.update s.client d pc c).stopRank ≤ (s.client c).stopRank := by
    intro d pc h
    by_cases hd : c = d
    · subst hd
      rwa [Function.update_self]
    · exact apart hd
  cases hs with
  | @stop d =>
    by_cases hd : c = d
    · subst hd
      simp only [Pool.setClient, Function.update_self]
      exact .inr (.inl le_rfl)
    · exact .inl (apart hd)
  | @stopQueue d _ hc =>
    by_cases hd : c = d
    · subst hd
      refine .inr (.inr ⟨rfl, ?_⟩)
      simp only [Pool.setClient, Function.update_self, hc]
      rfl
    · exact .inl (apart hd)
  | @stopFlag d hc =>
    by_cases hd : c = d
    · subst hd
      refine .inr (.inr ⟨rfl, ?_⟩)
      simp only [Pool.setClient, Function.update_self, hc]
      rfl
    · exact .inl (apart hd)
  | addData => exact .inl (back (Nat.zero_le _))
  | pause => exact .inl (back (Nat.zero_le _))
  | continues => exact .inl (back (Nat.zero_le _))
  | stopAgain => exact .inl (back (Nat.zero_le _))
  | addDataDone => exact .inl (back (Nat.zero_le _))
  | pauseDone => exact .inl (back (Nat.zero_le _))
  | pauseNext => exact .inl (back (Nat.zero_le _))
  | killDone => exact .inl (back (Nat.zero_le _))
  | killNext => exact .inl (back (Nat.zero_le _))
  | clear => exact .inl (back (Nat.zero_le _))
  | joinDone => exact .inl (back (Nat.zero_le _))
  | joinNext hc => exact .inl (back (by rw [hc]; exact le_rfl))
  | stopWait => exact .inl (back (Nat.zero_le _))
  | @drop w _ task => cases task <;> exact .inl le_rfl
  | _ => exact .inl le_rfl

theorem returned_of_stopQueue (hc : s.client c = .stopQueue)
    (hs : step s (.client c) = some s') : s.queue.threads (.inr c) = .returned .stop := by
  simp only [step, Pool.clientStep, hc] at hs
  split at hs
  case h_1 ht => exact ht
  case h_2 => cases hs

theorem released_of_step (h : Released SyncQueue.Op.onNotEmpty s.queue) (hs : Step s a s') :
    Released SyncQueue.Op.onNotEmpty s'.queue := by
  rcases queue_of_step hs with same | ⟨b, hb⟩
  · rwa [same]
  · exact h.step (SyncQueue.step_cases hb)

def QueueReleased (s : Pool n C T) : Prop :=
  ∀ c, 2 ≤ (s.client c).stopRank → Released SyncQueue.Op.onNotEmpty s.queue

theorem reach_queueReleased {ok : Pool n C T → Act n C T → Prop}
    (h : ReachIf step ok Pool.init s) : QueueReleased s := by
  refine h.invariant (I := QueueReleased) (fun _ hc => absurd hc (Nat.not_succ_le_zero 1)) ?_
  intro s a s' hr ih _ hs c hc
  by_cases past : 2 ≤ (s.client c).stopRank
  · exact released_of_step (ih c past) (step_cases hs)
  · rcases stopRank_of_step (step_cases hs) c with back | early | ⟨rfl, on⟩
    · exact absurd (hc.trans back) past
    · omega
    · have hq := stopQueue_of_stopRank (show (s.client c).stopRank = 1 by omega)
      have released := released_of_returned (reach_queue hr) (returned_of_stopQueue hq hs)
      exact released_of_step released (step_cases hs)

def NoneParked (s : Pool n C T) : Prop :=
  ∀ c, (s.client c).stopRank = 3 → ∀ w, s.isParked w = false

theorem NoneParked.step (h : NoneParked s) (ok : StopsAwake s a) (hs : Step s a s') :
    NoneParked s' := by
  intro c hc w
  by_contra parked
  rw [Bool.not_eq_false] at parked
  have was := parked_of_step (signals_of_step hs) parked
  by_cases joins : (s.client c).stopRank = 3
  · rcases was with was | ⟨check, flag, pending, ret, rfl⟩
    · cases was.symm.trans (h c joins w)
    · cases pending.symm.trans (ok.2 check ⟨c, joins⟩ flag)
  · rcases stopRank_of_step hs c with back | early | ⟨rfl, on⟩
    · have le : (s.client c).stopRank ≤ 3 := by cases s.client c <;> simp [ClientPc.stopRank]
      omega
    · omega
    · have flag := stopFlag_of_stopRank (show (s.client c).stopRank = 2 by omega)
      rcases was with was | ⟨-, -, -, ret, act⟩
      · cases was.symm.trans (ok.1 flag w)
      · cases act

theorem reach_noneParked (h : ReachIf step StopsAwake Pool.init s) : NoneParked s := by
  refine h.invariant (I := NoneParked) nofun ?_
  exact fun _ _ _ _ ih ok hs => ih.step ok (step_cases hs)

theorem blocked_of_worker {ok : Pool n C T → Act n C T → Prop} (h : ReachIf step ok Pool.init s)
    {w : Fin n} {op : SyncQueue.Op T} (hw : s.queue.threads (.inl w) = .blocked op) :
    op = .take := by
  have placed : (s.view w).Placed := (reach_accounted h w).placed
  have phase : (s.view w).phase = .blocked op := hw
  unfold View.Placed at placed
  split at placed
  case h_1 =>
    rcases placed with inside | ⟨r, back⟩
    · rw [phase] at inside
      exact Option.some.inj inside
    · cases phase.symm.trans back
  case h_2 => cases phase.symm.trans placed

/-- A worker that `Stop` joins is blocked neither in the queue nor in `sigwait`. -/
theorem stop_reaches_worker (h : ReachIf step StopsAwake Pool.init s) {w : Fin n}
    {rest : List (Fin n)} (hc : s.client c = .join (w :: rest)) :
    (∀ op, s.queue.threads (.inl w) ≠ .blocked op) ∧
      (s.worker w = .sigwait → s.sigusr1 w = true) := by
  have rank : (s.client c).stopRank = 3 := by rw [hc]; rfl
  constructor
  · intro op hw
    have nobody := (reach_queueReleased h c (by omega)).nobody (.inl w)
    rw [hw, blocked_of_worker h hw] at nobody
    cases nobody
  · intro sleeps
    by_contra pending
    have parked := isParked_iff.mpr ⟨sleeps, Bool.eq_false_iff.mpr pending⟩
    cases parked.symm.trans (reach_noneParked h c rank w)

theorem stop_reaches_worker_of_two : ∃ s : Pool 2 (Fin 1) Nat,
    (s.client 0 = .join [0, 1] ∧ s.worker 0 = .take ∧ s.worker 1 = .sigwait) ∧
    (∀ op, s.queue.threads (.inl 0) ≠ .blocked op) ∧
      (s.worker 0 = .sigwait → s.sigusr1 0 = true) := by
  obtain ⟨s, hs, hp⟩ := exists_reachIf step StopsAwake Pool.init
    [.work 0 .zero, .work 0 .zero, .queue (.run (.inl 0) none), .pause 0, .client 0, .client 0,
      .client 0, .work 1 .zero, .work 1 .zero, .continues 0, .client 0, .client 0, .client 0,
      .client 0, .client 0, .stop 0, .queue (.run (.inr 0) none), .queue (.run (.inr 0) none),
      .queue (.run (.inr 0) none), .client 0, .client 0]
    (fun s : Pool 2 (Fin 1) Nat => decide (s.client 0 = .join [0, 1] ∧ s.worker 0 = .take ∧
      s.worker 1 = .sigwait)) (by decide)
  have final := of_decide_eq_true hp
  exact ⟨s, final, stop_reaches_worker hs final.1⟩

/-- Nobody signals a worker that is paused when `Stop` begins to join it. -/
theorem paused_worker_joined :
    ¬ ∀ s : Pool 1 (Fin 1) Nat, Reach step Pool.init s → ∀ c w rest,
      s.client c = .join (w :: rest) →
      (∀ op, s.queue.threads (.inl w) ≠ .blocked op) ∧
        (s.worker w = .sigwait → s.sigusr1 w = true) := by
  intro all
  obtain ⟨s, hs, hp⟩ := exists_reach step Pool.init
    [.pause 0, .client 0, .client 0, .work 0 .zero, .work 0 .zero, .stop 0,
      .queue (.run (.inr 0) none), .queue (.run (.inr 0) none), .queue (.run (.inr 0) none),
      .client 0, .client 0]
    (fun s : Pool 1 (Fin 1) Nat => decide (s.client 0 = .join [0] ∧ s.worker 0 = .sigwait ∧
      s.sigusr1 0 = false)) (by decide)
  obtain ⟨hc, sleeps, pending⟩ := of_decide_eq_true hp
  cases pending.symm.trans ((all s hs 0 0 [] hc).2 sleeps)

end Leano.ThreadPool
