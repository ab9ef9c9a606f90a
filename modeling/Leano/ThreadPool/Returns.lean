import Leano.ThreadPool.AtRest
import Leano.ThreadPool.Stopped

universe u v

namespace Leano.ThreadPool

open Leano.Lib
open SyncQueue (Op)

variable {n : Nat} {C : Type v} {T : Type u}

def Act.goesOn : Act n C T → Bool
  | .client _ => true
  | .work _ _ => true
  | .queue _ => true
  | _ => false

def Act.unbroken : Act n C T → Bool
  | .work _ ret => decide (ret = .zero)
  | a => a.goesOn

structure Winding (s : Pool n C T) : Prop where
  past : PastQueue s
  off : s.running = false

def WorkerPc.toExit : WorkerPc T → Nat
  | .check => 5
  | .sigwait => 4
  | .take => 2
  | .process _ => 2
  | .test _ => 1
  | .loop => 1
  | .exited => 0

variable [Fintype C] [DecidableEq C] {s s' t : Pool n C T} {a : Act n C T} {c : C} {w : Fin n}

theorem PastQueue.after (h : PastQueue s) (hs : Step s a s') : PastQueue s' := by
  rcases h with ⟨c, past⟩ | done
  · have moved : ∀ {d : C} {old pc : ClientPc n}, s.client d = old →
        (2 ≤ old.stopRank → 2 ≤ pc.stopRank) →
        2 ≤ (Function.update s.client d pc c).stopRank := by
      intro d old pc hd goes
      by_cases same : c = d
      · subst same
        rw [Function.update_self]
        exact goes (hd ▸ past)
      · rwa [Function.update_of_ne same]
    have out : ∀ {pc old : ClientPc n}, old.stopRank = 0 → 2 ≤ old.stopRank → 2 ≤ pc.stopRank :=
      fun zero in' => absurd (zero ▸ in') (by decide)
    cases hs with
    | addData hc => exact .inl ⟨c, moved hc (out rfl)⟩
    | pause hc => exact .inl ⟨c, moved hc (out rfl)⟩
    | continues hc => exact .inl ⟨c, moved hc (out rfl)⟩
    | stop hc => exact .inl ⟨c, moved hc (out rfl)⟩
    | stopAgain hc => exact .inl ⟨c, moved hc (out rfl)⟩
    | addDataDone hc => exact .inl ⟨c, moved hc (out rfl)⟩
    | pauseDone hc => exact .inl ⟨c, moved hc (out rfl)⟩
    | pauseNext hc => exact .inl ⟨c, moved hc (out rfl)⟩
    | killDone hc => exact .inl ⟨c, moved hc (out rfl)⟩
    | killNext hc => exact .inl ⟨c, moved hc (out rfl)⟩
    | clear hc => exact .inl ⟨c, moved hc (out rfl)⟩
    | stopWait hc => exact .inl ⟨c, moved hc (out rfl)⟩
    | stopQueue hc => exact .inl ⟨c, moved hc fun _ => le_rfl⟩
    | stopFlag hc => exact .inl ⟨c, moved hc fun _ => Nat.le_succ 2⟩
    | joinNext hc => exact .inl ⟨c, moved hc fun _ => Nat.le_succ 2⟩
    | joinDone => exact .inr rfl
    | @drop w _ task => cases task <;> exact .inl ⟨c, past⟩
    | _ => exact .inl ⟨c, past⟩
  · cases hs with
    | stop _ fresh => cases fresh.symm.trans done
    | joinDone => exact .inr rfl
    | @drop w _ task => cases task <;> exact .inr done
    | _ => exact .inr done

theorem Winding.after (h : Winding s) (hs : Step s a s') : Winding s' := by
  refine ⟨h.past.after hs, ?_⟩
  cases hs with
  | stopFlag => rfl
  | failed => rfl
  | @drop w _ task => cases task <;> exact h.off
  | _ => exact h.off

theorem PastQueue.quiet (h : PastQueue s) (reach : Reach step Pool.init s) (c : C) :
    s.client c ≠ .stopQueue := by
  intro stops
  have stage : (s.client c).stage = some none := by rw [stops]; rfl
  have mine := (reach_stopping reach).stopsPool stage
  rcases h with ⟨d, past⟩ | done
  · by_cases same : d = c
    · subst same
      rw [stops] at past
      exact absurd past (Nat.lt_irrefl 1)
    · have none := mine.others d same
      cases hd : s.client d with
      | stopFlag => cases hd ▸ none
      | join rest => cases hd ▸ none
      | stopQueue => cases hd ▸ none
      | _ => rw [hd] at past; exact absurd past (Nat.not_succ_le_zero 1)
  · cases done.symm.trans mine.once

theorem PastQueue.not_blocked (h : PastQueue s) (reach : Reach step Pool.init s)
    {t : Fin n ⊕ C} {op : Op T} : s.queue.threads t ≠ .blocked op := by
  intro blocked
  obtain ⟨full, empty⟩ := released_of_pastQueue reach h
  have inside : (s.queue.threads t).op? = some op := by rw [blocked]; rfl
  rcases putOrTake reach (h.quiet reach) inside with ⟨x, rfl⟩ | rfl
  · have nobody := full.nobody t
    rw [blocked] at nobody
    cases nobody
  · have nobody := empty.nobody t
    rw [blocked] at nobody
    cases nobody

def Pool.toReturn (s : Pool n C T) : Nat :=
  count (fun ph => ph.section?.isSome) s.queue.threads + total WorkerPc.toExit s.worker +
    total (ClientPc.toReturn n) s.client

theorem PastQueue.sections (h : PastQueue s) (reach : Reach step Pool.init s)
    {b : SyncQueue.Act (Fin n ⊕ C) T} {q : SyncQueue.State (Fin n ⊕ C) T} (inner : b.isInner = true)
    (hq : SyncQueue.step s.queue b = some q) :
    count (fun ph => ph.section?.isSome) q.threads <
      count (fun ph => ph.section?.isSome) s.queue.threads := by
  have stopped := (released_of_pastQueue reach h).1.needStop
  have op := @putOrTake _ _ _ _ _ _ reach (h.quiet reach)
  cases SyncQueue.step_cases hq with
  | call => cases inner
  | ret => cases inner
  | spurious blocked => exact absurd blocked (h.not_blocked reach)
  | @wait t w o hop blocks =>
    cases o <;> simp [Op.blocks, SyncQueue.Queue.mayAdd, SyncQueue.Queue.mayTake, stopped] at blocks
  | @stopped t w o r hop =>
    have moved := count_update (fun ph => ph.section?.isSome) s.queue.threads t (.returned r)
    rw [hop] at moved
    exact Nat.lt_of_succ_le moved.le
  | put _ go => cases stopped.symm.trans go
  | take _ go => cases stopped.symm.trans go
  | takeList _ go => cases stopped.symm.trans go
  | stop hop => rcases op (Phase.op?_of_section hop) with ⟨x, put⟩ | take <;> contradiction
  | stopNotFull hop => rcases op (Phase.op?_of_section hop) with ⟨x, put⟩ | take <;> contradiction
  | stopNotEmpty hop => rcases op (Phase.op?_of_section hop) with ⟨x, put⟩ | take <;> contradiction

section

omit [Fintype C] [DecidableEq C]

theorem toReturn_worker [Fintype C] {old pc : WorkerPc T} (hw : s.worker w = old)
    (worker : s'.worker = Function.update s.worker w pc) (client : s'.client = s.client)
    (less : count (fun ph => ph.section?.isSome) s'.queue.threads + pc.toExit <
      count (fun ph => ph.section?.isSome) s.queue.threads + old.toExit) :
    s'.toReturn < s.toReturn := by
  have moved := total_update WorkerPc.toExit s.worker w pc
  rw [hw, ← worker] at moved
  simp only [Pool.toReturn, client]
  omega

theorem toReturn_client [Fintype C] [DecidableEq C] {old pc : ClientPc n} (hc : s.client c = old)
    (client : s'.client = Function.update s.client c pc) (worker : s'.worker = s.worker)
    (queue : count (fun ph => ph.section?.isSome) s'.queue.threads =
      count (fun ph => ph.section?.isSome) s.queue.threads)
    (less : pc.toReturn n < old.toReturn n) : s'.toReturn < s.toReturn := by
  have moved := total_update (ClientPc.toReturn n) s.client c pc
  rw [hc, ← client] at moved
  simp only [Pool.toReturn, worker, queue]
  omega

end

theorem Winding.lowers (h : Winding s) (reach : Reach step Pool.init s) (goes : a.goesOn = true)
    (hs : Step s a s') : s'.toReturn < s.toReturn := by
  have thread : ∀ (t : Fin n ⊕ C) (ph : Phase (Op T) (SyncQueue.Res T)),
      count (fun ph => ph.section?.isSome) (Function.update s.queue.threads t ph) +
          (s.queue.threads t).section?.isSome.toNat =
        count (fun ph => ph.section?.isSome) s.queue.threads + ph.section?.isSome.toNat :=
    count_update _ _
  have ret : ∀ {t q}, SyncQueue.step s.queue (.ret t) = some q →
      count (fun ph => ph.section?.isSome) q.threads =
        count (fun ph => ph.section?.isSome) s.queue.threads := by
    intro t q hq
    obtain ⟨⟨r, back⟩, rfl⟩ := SyncQueue.eq_of_ret hq
    have moved := thread t .idle
    rw [back] at moved
    exact moved
  have call : ∀ {t q}, SyncQueue.step s.queue (.call t .take) = some q →
      count (fun ph => ph.section?.isSome) q.threads =
        count (fun ph => ph.section?.isSome) s.queue.threads + 1 := by
    intro t q hq
    obtain ⟨idle, rfl⟩ := SyncQueue.eq_of_call hq
    have moved := thread t (.ready .take)
    rw [idle] at moved
    exact moved
  cases hs with
  | addData => cases goes
  | pause => cases goes
  | continues => cases goes
  | stop => cases goes
  | stopAgain => cases goes
  | addDataDone hc hq => exact toReturn_client hc rfl rfl (ret hq) (by simp [ClientPc.toReturn])
  | pauseDone hc => exact toReturn_client hc rfl rfl rfl (by simp [ClientPc.toReturn])
  | pauseNext hc => exact toReturn_client hc rfl rfl rfl (by simp [ClientPc.toReturn])
  | killDone hc => exact toReturn_client hc rfl rfl rfl (by simp [ClientPc.toReturn])
  | killNext hc => exact toReturn_client hc rfl rfl rfl (by simp [ClientPc.toReturn]; omega)
  | clear hc => exact toReturn_client hc rfl rfl rfl (by simp [ClientPc.toReturn])
  | stopQueue hc => exact absurd hc (h.past.quiet reach _)
  | @stopFlag c hc =>
    have stage : (s.client c).stage = some none := by rw [hc]; rfl
    have group := ((reach_stopping reach).stopsPool stage).group
    exact toReturn_client hc rfl rfl rfl (by simp [ClientPc.toReturn, group])
  | joinDone hc => exact toReturn_client hc rfl rfl rfl (by simp [ClientPc.toReturn])
  | joinNext hc => exact toReturn_client hc rfl rfl rfl (by simp [ClientPc.toReturn])
  | stopWait hc => exact toReturn_client hc rfl rfl rfl (by simp [ClientPc.toReturn])
  | loop hw =>
    rw [h.off]
    exact toReturn_worker hw rfl rfl (Nat.lt_succ_self _)
  | check hw => exact toReturn_worker hw rfl rfl (Nat.lt_succ_self _)
  | enterTake hw _ hq =>
    have called := call hq
    exact toReturn_worker hw rfl rfl (by simp only [WorkerPc.toExit]; omega)
  | signalled hw _ hq =>
    have called := call hq
    exact toReturn_worker hw rfl rfl (by simp only [WorkerPc.toExit]; omega)
  | interrupted hw => exact toReturn_worker hw rfl rfl (by simp [WorkerPc.toExit, Pool.setWorker])
  | failed hw => exact toReturn_worker hw rfl rfl (by simp [WorkerPc.toExit, Pool.setWorker])
  | take hw _ hq =>
    have returned := ret hq
    exact toReturn_worker hw rfl rfl (by simp only [WorkerPc.toExit]; omega)
  | test _ on => cases on.symm.trans h.off
  | @drop w _ task hw => cases task <;> exact toReturn_worker hw rfl rfl (Nat.lt_succ_self _)
  | process hw => exact toReturn_worker hw rfl rfl (Nat.lt_succ_self _)
  | queue inner hq =>
    have less := h.past.sections reach inner hq
    simp only [Pool.toReturn]
    omega

section

variable (h : Winding s) (reach : Reach step Pool.init s) (stuck : Stuck (only Act.unbroken step) s)
include h reach stuck

theorem Winding.worker (w : Fin n) : s.worker w = .exited ∨ s.isParked w = true := by
  have works : s.runInThread w .zero = none :=
    stuck.of_only (show (Act.work w .zero : Act n C T).unbroken = true from rfl)
  have settled := settled_of_stuck (fun t w => stuck.of_only rfl) (.inl w)
  rcases worker_of_stuck reach works settled with exited | parked | ⟨-, blocked⟩
  · exact .inl exited
  · exact .inr parked
  · exact absurd blocked (h.past.not_blocked reach)

theorem Winding.client (c : C) :
    s.client c = .idle ∨ s.client c = .stopWait ∧ s.once ≠ .done ∨
      ∃ w rest, s.client c = .join (w :: rest) ∧ s.isParked w = true := by
  have goes : s.clientStep c = none :=
    stuck.of_only (show (Act.client c : Act n C T).unbroken = true from rfl)
  cases hc : s.client c with
  | idle => exact .inl rfl
  | addData =>
    have settled := settled_of_stuck (fun t w => stuck.of_only rfl) (.inr c)
    obtain ⟨x, blocked⟩ := full_of_stuck reach hc goes settled
    exact absurd blocked (h.past.not_blocked reach)
  | pause rest => cases rest <;> simp [Pool.clientStep, hc] at goes
  | kill rest => cases rest <;> simp [Pool.clientStep, hc] at goes
  | clear w rest => simp [Pool.clientStep, hc] at goes
  | stopQueue => exact absurd hc (h.past.quiet reach c)
  | stopFlag => simp [Pool.clientStep, hc] at goes
  | join rest =>
    cases rest with
    | nil => simp [Pool.clientStep, hc] at goes
    | cons w rest =>
      rcases h.worker reach stuck w with exited | parked
      · simp [Pool.clientStep, hc, exited] at goes
      · exact .inr (.inr ⟨w, rest, rfl, parked⟩)
  | stopWait =>
    refine .inr (.inl ⟨rfl, fun done => ?_⟩)
    simp [Pool.clientStep, hc, done] at goes

theorem Winding.stopped :
    s.once = .done ∧ (∀ c, s.client c = .idle) ∨
      ∃ c w rest, s.client c = .join (w :: rest) ∧ s.isParked w = true := by
  by_cases joins : ∃ c w rest, s.client c = .join (w :: rest) ∧ s.isParked w = true
  · exact .inr joins
  · have client : ∀ c, s.client c = .idle ∨ s.client c = .stopWait ∧ s.once ≠ .done :=
      fun c => (h.client reach stuck c).imp_right fun rest =>
        rest.resolve_right fun ⟨w, rest, here⟩ => joins ⟨c, w, rest, here⟩
    have done : s.once = .done := by
      rcases h.past with ⟨c, past⟩ | done
      · rcases client c with idle | ⟨waits, -⟩
        · rw [idle] at past
          exact absurd past (Nat.not_succ_le_zero 1)
        · rw [waits] at past
          exact absurd past (Nat.not_succ_le_zero 1)
      · exact done
    exact .inl ⟨done, fun c => (client c).resolve_right fun waits => waits.2 done⟩

end

/-- Once `StopThreadGroup` has cleared `m_running` the pool comes to rest if no client calls again,
whatever `sigwait` comes back with on the way. Where it rests every worker has exited or is parked
in `sigwait`, and `Stop` has returned to everybody, or it joins a worker that is parked. -/
theorem stop_returns (h : Reach step Pool.init s) (past : PastQueue s) (off : s.running = false) :
    Halts (only Act.goesOn step) s ∧
      ∀ t, Reach (only Act.goesOn step) s t → Stuck (only Act.unbroken step) t →
        (∀ w, t.worker w = .exited ∨ t.isParked w = true) ∧
          (t.once = .done ∧ (∀ c, t.client c = .idle) ∨
            ∃ c w rest, t.client c = .join (w :: rest) ∧ t.isParked w = true) := by
  refine ⟨?_, fun t hr stuck => ?_⟩
  · refine halts_of_lowers (I := fun s => Winding s ∧ Reach step Pool.init s)
      Pool.toReturn ?_ ⟨⟨past, off⟩, h⟩
    intro s a t hI hs
    obtain ⟨goes, hs⟩ := only_eq_some.mp hs
    exact ⟨⟨hI.1.after (step_cases hs), .next hI.2 trivial hs⟩,
      hI.1.lowers hI.2 goes (step_cases hs)⟩
  · have winding : Winding t := by
      refine hr.invariant (I := Winding) ⟨past, off⟩ ?_
      exact fun _ _ _ _ ih _ hs => ih.after (step_cases (only_eq_some.mp hs).2)
    have reach := h.trans (reach_of_only hr)
    exact ⟨winding.worker reach stuck, winding.stopped reach stuck⟩

theorem stop_returns_of_two : ∃ s : Pool 1 (Fin 2) Nat,
    (s.client 0 = .join [0] ∧ s.client 1 = .stopWait ∧ s.worker 0 = .take) ∧
      Halts (only Act.goesOn step) s ∧
      ∀ t, Reach (only Act.goesOn step) s t → Stuck (only Act.unbroken step) t →
        (∀ w, t.worker w = .exited ∨ t.isParked w = true) ∧
          (t.once = .done ∧ (∀ c, t.client c = .idle) ∨
            ∃ c w rest, t.client c = .join (w :: rest) ∧ t.isParked w = true) := by
  obtain ⟨s, hs, hp⟩ := exists_reach step Pool.init
    [.work 0 .zero, .work 0 .zero, .queue (.run (.inl 0) none), .stop 0, .stop 1,
      .queue (.run (.inr 0) none), .queue (.run (.inr 0) none), .queue (.run (.inr 0) none),
      .client 0, .client 0]
    (fun s : Pool 1 (Fin 2) Nat => decide ((s.client 0 = .join [0] ∧ s.client 1 = .stopWait ∧
      s.worker 0 = .take) ∧ s.running = false)) (by decide)
  obtain ⟨shown, off⟩ := of_decide_eq_true hp
  have past : PastQueue s := .inl ⟨0, by rw [shown.1]; exact Nat.le_succ 2⟩
  exact ⟨s, shown, stop_returns hs past off⟩

end Leano.ThreadPool
