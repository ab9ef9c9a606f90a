import Leano.ThreadPool.Joining

universe u v

namespace Leano.ThreadPool

open Leano.Lib
open SyncQueue (Op Released)

variable {n : Nat} {C : Type v} {T : Type u} [Fintype C] [DecidableEq C]
  {s s' t : Pool n C T} {a : Act n C T}

def PastQueue (s : Pool n C T) : Prop := (∃ c, 2 ≤ (s.client c).stopRank) ∨ s.once = .done

theorem once_of_step (hs : Step s a s') (done : s'.once = .done) :
    s.once = .done ∨ ∃ c, (s.client c).stopRank = 3 := by
  cases hs with
  | stop => cases done
  | @joinDone c hc => exact .inr ⟨c, congrArg ClientPc.stopRank hc⟩
  | @drop w _ task => cases task <;> exact .inl done
  | _ => exact .inl done

theorem pastQueue_of_step (hs : step s a = some s') (past : PastQueue s') :
    PastQueue s ∨ ∃ c, s.queue.threads (.inr c) = .returned .stop := by
  rcases past with ⟨c, hc⟩ | done
  · by_cases earlier : 2 ≤ (s.client c).stopRank
    · exact .inl (.inl ⟨c, earlier⟩)
    · rcases stopRank_of_step (step_cases hs) c with back | early | ⟨rfl, on⟩
      · exact absurd (hc.trans back) earlier
      · omega
      · have stops := stopQueue_of_stopRank (show (s.client c).stopRank = 1 by omega)
        exact .inr ⟨c, returned_of_stopQueue stops hs⟩
  · rcases once_of_step (step_cases hs) done with was | ⟨c, joins⟩
    · exact .inl (.inr was)
    · exact .inl (.inl ⟨c, joins ▸ Nat.le_succ 2⟩)

theorem released_of_pastQueue (h : Reach step Pool.init s) (past : PastQueue s) :
    Released Op.onNotFull s.queue ∧ Released Op.onNotEmpty s.queue := by
  refine h.invariant (I := fun s => PastQueue s →
    Released Op.onNotFull s.queue ∧ Released Op.onNotEmpty s.queue) ?_ ?_ past
  · rintro (⟨c, rank⟩ | done)
    · cases rank
    · cases done
  · intro s a s' hr ih _ hs past
    have released : Released Op.onNotFull s.queue ∧ Released Op.onNotEmpty s.queue := by
      rcases pastQueue_of_step hs past with earlier | ⟨c, back⟩
      · exact ih earlier
      · exact ⟨SyncQueue.releasedPut_of_returned (reach_queue hr) back,
          SyncQueue.released_of_returned (reach_queue hr) back⟩
    rcases queue_of_step (step_cases hs) with same | ⟨b, hb⟩
    · rwa [same]
    · exact released.imp (fun full => full.step (SyncQueue.step_cases hb))
        fun empty => empty.step (SyncQueue.step_cases hb)

theorem exited_of_done (h : Reach step Pool.init s) (done : s.once = .done) (w : Fin n) :
    s.worker w = .exited := by
  cases reach_stopping h with
  | fresh fresh => cases fresh.symm.trans done
  | active hs => cases hs.once.symm.trans done
  | done _ _ exited => exact exited w

theorem still_of_step (h : Reach step Pool.init s) (done : s.once = .done)
    (hs : step s a = some s') : s'.once = .done ∧ s'.calls = s.calls ∧
      s'.queue.q = s.queue.q ∧ s'.queue.enqueued = s.queue.enqueued := by
  have stopped := (released_of_pastQueue h (.inr done)).1.needStop
  have queue : ∀ {b q}, SyncQueue.step s.queue b = some q →
      q.q = s.queue.q ∧ q.enqueued = s.queue.enqueued := by
    intro b q hq
    have hq := SyncQueue.step_cases hq
    refine ⟨SyncQueue.q_of_stopped stopped hq, ?_⟩
    cases hq with
    | @call t op => cases op <;> rfl
    | put _ go => cases stopped.symm.trans go
    | _ => rfl
  have gone : ∀ {w : Fin n} {pc : WorkerPc T} {P : Prop}, s.worker w = pc → pc ≠ .exited → P :=
    fun hw out => absurd (hw.symm.trans (exited_of_done h done _)) out
  cases step_cases hs with
  | addData _ hq => exact ⟨done, rfl, queue hq⟩
  | addDataDone _ hq => exact ⟨done, rfl, queue hq⟩
  | stopQueue _ hq => exact ⟨done, rfl, queue hq⟩
  | queue _ hq => exact ⟨done, rfl, queue hq⟩
  | stop _ fresh => cases fresh.symm.trans done
  | joinDone => exact ⟨rfl, rfl, rfl, rfl⟩
  | loop hw => exact gone hw (by simp)
  | check hw => exact gone hw (by simp)
  | enterTake hw => exact gone hw (by simp)
  | signalled hw => exact gone hw (by simp)
  | interrupted hw => exact gone hw (by simp)
  | failed hw => exact gone hw (by simp)
  | take hw => exact gone hw (by simp)
  | test hw => exact gone hw (by simp)
  | drop hw => exact gone hw (by simp)
  | process hw => exact gone hw (by simp)
  | _ => exact ⟨done, rfl, rfl, rfl⟩

/-- Whatever is called once `Stop` has returned: no worker comes back, no task is processed, the
queue keeps what it holds and takes nothing more, and no `AddData` waits for room in it. -/
theorem stopped_for_good (h : Reach step Pool.init s) (done : s.once = .done)
    (hr : Reach step s t) :
    (∀ w, t.worker w = .exited) ∧ t.processed = s.processed ∧
      t.queue.q.queue = s.queue.q.queue ∧ t.queue.enqueued = s.queue.enqueued ∧
      ∀ k, (t.queue.threads k).isBlocked Op.onNotFull = false := by
  have still : t.once = .done ∧ t.calls = s.calls ∧ t.queue.q = s.queue.q ∧
      t.queue.enqueued = s.queue.enqueued := by
    refine hr.invariant (I := fun t => t.once = .done ∧ t.calls = s.calls ∧
      t.queue.q = s.queue.q ∧ t.queue.enqueued = s.queue.enqueued) ⟨done, rfl, rfl, rfl⟩ ?_
    rintro u a v hu ⟨done, calls, queue, enqueued⟩ - hs
    obtain ⟨done', calls', queue', enqueued'⟩ := still_of_step (h.trans hu) done hs
    exact ⟨done', calls'.trans calls, queue'.trans queue, enqueued'.trans enqueued⟩
  obtain ⟨done', calls, queue, enqueued⟩ := still
  refine ⟨exited_of_done (h.trans hr) done', ?_, congrArg _ queue, enqueued,
    (released_of_pastQueue (h.trans hr) (.inr done')).1.nobody⟩
  rw [Pool.processed, calls]
  rfl

theorem stopped_for_good_of_one : ∃ s t : Pool 1 (Fin 1) Nat,
    (s.once = .done ∧ t.queue.offered = [7] ∧ t.client 0 = .idle) ∧
      (∀ w, t.worker w = .exited) ∧ t.processed = s.processed ∧
      t.queue.q.queue = s.queue.q.queue ∧ t.queue.enqueued = s.queue.enqueued ∧
      ∀ k, (t.queue.threads k).isBlocked Op.onNotFull = false := by
  obtain ⟨s, hs, hp⟩ := exists_reach step Pool.init
    [.stop 0, .queue (.run (.inr 0) none), .queue (.run (.inr 0) none),
      .queue (.run (.inr 0) none), .client 0, .client 0, .work 0 .zero, .client 0, .client 0]
    (fun s : Pool 1 (Fin 1) Nat => decide (s.once = .done) &&
      (runIf step (fun _ _ => True) s
        [.addData 0 7, .queue (.run (.inr 0) none), .client 0]).any
        fun t : Pool 1 (Fin 1) Nat => decide (t.queue.offered = [7] ∧ t.client 0 = .idle))
    (by decide)
  obtain ⟨done, later⟩ := Bool.and_eq_true_iff.mp hp
  have done := of_decide_eq_true done
  obtain ⟨t, ht, added⟩ := exists_reach step s _ _ later
  exact ⟨s, t, ⟨done, of_decide_eq_true added⟩, stopped_for_good hs done ht⟩

end Leano.ThreadPool
