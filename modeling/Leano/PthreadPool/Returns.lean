import Leano.PthreadPool.AtRest

universe u v

namespace Leano.PthreadPool

open Leano.Lib

variable {n : Nat} {C : Type v} {M : Type u}

structure Down (s : Pool n C M) : Prop where
  started : s.start = .returned
  down : s.shutdown = true
  count : s.maxThreadNum = n

def WorkerPc.toExit : WorkerPc M → Nat
  | .wait => 1
  | .unlockExit => 1
  | .check => 2
  | .test => 3
  | .lock => 4
  | .woken => 4
  | .delete _ => 5
  | .process _ => 6
  | .unlock _ => 7
  | .front => 8
  | .guard => 9
  | _ => 0

def ClientPc.toReturn (n : Nat) : ClientPc M → Nat
  | .signal => 5
  | .unlock => 6
  | .store _ => 7
  | .load => 8
  | .push _ => 9
  | .lock _ => 10
  | .join i => (n - 1 - i) * (4 * n + 2) + 2
  | .next i => (n - i) * (4 * n + 2) + 1
  | .broadcast => n * (4 * n + 2) + 4 * n + 2
  | .shut => n * (4 * n + 2) + 4 * n + 3
  | .destory => n * (4 * n + 2) + 4 * n + 4
  | _ => 0

variable {debug : Bool} {s t : Pool n C M} {a : Act n C M} {c : C} {w : Fin n}

theorem toExit_wake (pc : WorkerPc M) : pc.wake.toExit ≤ pc.toExit + 4 := by
  cases pc <;> simp [WorkerPc.wake, WorkerPc.toExit]

theorem toExit_broadcast (s : Pool n C M) :
    total WorkerPc.toExit s.broadcast.worker ≤ total WorkerPc.toExit s.worker + 4 * n := by
  calc
    total WorkerPc.toExit s.broadcast.worker ≤ ∑ w, ((s.worker w).toExit + 4) :=
      Finset.sum_le_sum fun w _ => toExit_wake _
    _ = total WorkerPc.toExit s.worker + 4 * n := by
      rw [Finset.sum_add_distrib, Finset.sum_const, Finset.card_univ, Fintype.card_fin,
        Nat.nsmul_eq_mul, mul_comm]
      rfl

def JoinsThere (s : Pool n C M) : Prop :=
  s.maxThreadNum ≤ n ∧ (s.start ≠ .fresh → s.maxThreadNum = n) ∧
    ∀ c i, s.client c = .join i → i < n

section

variable [DecidableEq C]

theorem JoinsThere.step (h : JoinsThere s) (hs : Step debug s a t) : JoinsThere t := by
  obtain ⟨le, count, there⟩ := h
  have other : ∀ {c : C} {pc : ClientPc M}, (∀ i, pc ≠ .join i) →
      ∀ d i, Function.update s.client c pc d = .join i → i < n :=
    fun ne => forall_update (Q := fun pc : ClientPc M => ∀ i, pc = .join i → i < n) there
      fun i same => absurd same (ne i)
  cases hs with
  | call => exact ⟨le_rfl, fun _ => rfl, there⟩
  | reset hs | clear hs | create _ hs | started hs =>
    exact ⟨le, fun _ => count (by rw [hs]; simp), there⟩
  | add | destory | acquireAdd | push | load | store | unlockAdd | signal | signalNobody =>
    exact ⟨le, count, other fun _ => by simp⟩
  | testShutdown => exact ⟨le, count, other fun _ => by split <;> simp⟩
  | shut | broadcast | joined | join => exact ⟨le, count, other fun _ => by simp⟩
  | next _ more =>
    refine ⟨le, count, ?_⟩
    refine forall_update (Q := fun pc : ClientPc M => ∀ i, pc = .join i → i < n) there ?_
    rintro i ⟨⟩
    exact more.trans_le le
  | _ => exact ⟨le, count, there⟩

theorem hasShut_of_step (hs : Step debug s a t) (c : C) (shut : (s.client c).hasShut = true) :
    (t.client c).hasShut = true := by
  have moved : ∀ {d : C} {old pc : ClientPc M}, s.client d = old →
      (old.hasShut = true → pc.hasShut = true) →
      (Function.update s.client d pc c).hasShut = true := by
    intro d old pc hd goes
    by_cases same : c = d
    · subst same
      rw [Function.update_self]
      exact goes (hd ▸ shut)
    · rwa [Function.update_of_ne same]
  cases hs with
  | add hc | destory hc | acquireAdd hc | push hc => exact moved hc fun out => by cases out
  | load hc | store hc | unlockAdd hc | signal hc => exact moved hc fun out => by cases out
  | signalNobody hc | testShutdown hc => exact moved hc fun out => by cases out
  | shut hc => exact moved hc fun _ => rfl
  | broadcast hc => exact moved hc fun _ => rfl
  | next hc => exact moved hc fun _ => rfl
  | joined hc => exact moved hc fun _ => rfl
  | join _ hc => exact moved hc fun _ => rfl
  | _ => exact shut

theorem Down.of_settles (h : Down s) (ha : a.settles = true) (hs : Step debug s a t) : Down t := by
  refine ⟨returned_of_step hs h.started, shutdown_of_step hs h.started h.down, ?_⟩
  cases hs with
  | call => cases ha
  | _ => exact h.count

end

def Pool.toReturn [Fintype C] (s : Pool n C M) : Nat :=
  total WorkerPc.toExit s.worker + total (ClientPc.toReturn n) s.client

variable [Fintype C] [DecidableEq C]

omit [DecidableEq C] in
theorem toReturn_worker {old pc : WorkerPc M} (hw : s.worker w = old)
    (worker : t.worker = Function.update s.worker w pc) (client : t.client = s.client)
    (less : pc.toExit < old.toExit) : t.toReturn < s.toReturn := by
  have moved := total_update WorkerPc.toExit s.worker w pc
  rw [hw, ← worker] at moved
  simp only [Pool.toReturn, client]
  omega

theorem toReturn_client {old pc : ClientPc M} (hc : s.client c = old)
    (client : t.client = Function.update s.client c pc)
    (less : total WorkerPc.toExit t.worker + pc.toReturn n <
      total WorkerPc.toExit s.worker + old.toReturn n) : t.toReturn < s.toReturn := by
  have moved := total_update (ClientPc.toReturn n) s.client c pc
  rw [hc, ← client] at moved
  simp only [Pool.toReturn]
  omega

theorem Down.lowers (h : Down s) (steady : Steady s) (ha : a.settles = true)
    (hs : Step debug s a t) : t.toReturn < s.toReturn := by
  have less : ∀ {k i j : Nat}, i < j → k + i < k + j := fun lt => Nat.add_lt_add_left lt _
  have woken := toExit_broadcast s
  cases hs with
  | call | reset | clear | create | started | add | destory | spurious => cases ha
  | acquireAdd hc => exact toReturn_client hc rfl (less (by simp [ClientPc.toReturn]))
  | push hc => exact toReturn_client hc rfl (less (by simp [ClientPc.toReturn]))
  | load hc => exact toReturn_client hc rfl (less (by simp [ClientPc.toReturn]))
  | store hc => exact toReturn_client hc rfl (less (by simp [ClientPc.toReturn]))
  | unlockAdd hc => exact toReturn_client hc rfl (less (by simp [ClientPc.toReturn]))
  | @signal c w hc hw =>
    have woken := total_update WorkerPc.toExit s.worker w .woken
    rw [hw] at woken
    refine toReturn_client hc rfl ?_
    simp only [Pool.setClient, Pool.setWorker, ClientPc.toReturn, WorkerPc.toExit] at woken ⊢
    omega
  | signalNobody hc => exact toReturn_client hc rfl (less (by simp [ClientPc.toReturn]))
  | testShutdown hc =>
    rw [h.down]
    exact toReturn_client hc rfl (less (by simp [ClientPc.toReturn]))
  | shut hc => exact toReturn_client hc rfl (less (by simp [ClientPc.toReturn]))
  | broadcast hc =>
    refine toReturn_client hc rfl ?_
    simp only [Pool.setClient, ClientPc.toReturn, Nat.sub_zero] at woken ⊢
    omega
  | @next c wake i hc more =>
    rw [h.count] at more
    have fewer : n - i = (n - 1 - i) + 1 := by omega
    refine toReturn_client hc rfl ?_
    simp only [Pool.setClient, ClientPc.toReturn, fewer, Nat.add_mul] at woken ⊢
    omega
  | joined hc => exact toReturn_client hc rfl (less (by simp [ClientPc.toReturn]))
  | @join c wake i hi hc =>
    have fewer : n - (i + 1) = n - 1 - i := by omega
    exact toReturn_client hc rfl (less (by simp [ClientPc.toReturn, fewer]))
  | acquire hw =>
    rcases hw with hw | hw
    · exact toReturn_worker hw rfl rfl (by simp [WorkerPc.toExit])
    · exact toReturn_worker hw rfl rfl (by simp [WorkerPc.toExit])
  | empty _ empty => cases empty.2.symm.trans h.down
  | wait hw => exact toReturn_worker hw rfl rfl (by simp [WorkerPc.toExit])
  | spin _ empty => cases empty.2.symm.trans h.down
  | proceed hw => exact toReturn_worker hw rfl rfl (by simp [WorkerPc.toExit])
  | check hw =>
    rw [h.down]
    exact toReturn_worker hw rfl rfl (by simp [WorkerPc.toExit])
  | unlockExit hw => exact toReturn_worker hw rfl rfl (by simp [WorkerPc.toExit])
  | take hw => exact toReturn_worker hw rfl rfl (by simp [WorkerPc.toExit])
  | relock hw none =>
    have sound := steady.order.sound
    rw [Core.Sound, steady.order.locked.place_worker hw rfl] at sound
    exact absurd sound.2.1 none
  | fault hw empty => exact absurd empty (steady.order.front hw)
  | pop hw => exact toReturn_worker hw rfl rfl (by simp [WorkerPc.toExit])
  | unlock hw => exact toReturn_worker hw rfl rfl (by simp [WorkerPc.toExit])
  | process hw => exact toReturn_worker hw rfl rfl (by simp [WorkerPc.toExit])
  | delete hw => exact toReturn_worker hw rfl rfl (by simp [WorkerPc.toExit])

section

variable [DecidableEq M]

omit [Fintype C] in
theorem reach_joinsThere (h : Reach (step debug) Pool.init s) : JoinsThere s := by
  refine h.invariant (I := JoinsThere) ⟨Nat.zero_le _, fun late => absurd rfl late, ?_⟩ ?_
  · exact fun _ _ hc => by cases hc
  · exact fun _ _ _ _ ih _ hs => ih.step (step_cases hs)

omit [Fintype C] in
theorem Down.joined (h : Down s) (steady : Steady s) (there : JoinsThere s)
    (stuck : Stuck (settle debug) s) (c : C) (shut : (s.client c).hasShut = true) :
    s.client c = .joined ∨ ∃ w : Fin n, s.client c = .join w ∧ s.worker w = .blocked := by
  have client : ∀ {t}, Step debug s (.client c none) t → False := not_stuck stuck rfl
  cases hc : s.client c with
  | joined => exact .inl rfl
  | broadcast => exact (client (.broadcast hc)).elim
  | next i =>
    by_cases more : i < s.maxThreadNum
    · exact (client (.next hc more)).elim
    · exact (client (.joined hc more)).elim
  | join i =>
    have hi := there.2.2 c i hc
    rcases steady.blocked_or_exited stuck h.started ⟨i, hi⟩ with blocked | exited
    · exact .inr ⟨⟨i, hi⟩, rfl, blocked⟩
    · exact (client (.join hi hc exited)).elim
  | _ => rw [hc] at shut; cases shut

/-- Once `shutdown` is written the pool of the build with DEBUG comes to rest if no client calls
again. Every worker has left then or is blocked, and every `pool_destory` that has written
`shutdown` has joined them or waits for one that is blocked. -/
theorem destory_returns (h : Reach (step true) Pool.init s) (started : s.start = .returned)
    (down : s.shutdown = true) : Halts (settle true) s ∧
      ∀ t, Reach (settle true) s t → Stuck (settle true) t →
        (∀ w, t.worker w = .exited ∨ t.worker w = .blocked) ∧
        ∀ c, (s.client c).hasShut = true → t.client c = .joined ∨
          ∃ w : Fin n, t.client c = .join w ∧ t.worker w = .blocked := by
  have first : Down s := ⟨started, down, (reach_joinsThere h).2.1 (by rw [started]; simp)⟩
  refine ⟨?_, fun t hr stuck => ?_⟩
  · refine halts_of_lowers (I := fun s => Down s ∧ Reach (step true) Pool.init s)
      Pool.toReturn ?_ ⟨first, h⟩
    intro s a t hI hs
    obtain ⟨ha, hs⟩ := only_eq_some.mp hs
    exact ⟨⟨hI.1.of_settles ha (step_cases hs), .next hI.2 trivial hs⟩,
      hI.1.lowers (reach_steady hI.2) ha (step_cases hs)⟩
  · obtain ⟨later, shut⟩ : Down t ∧
        ∀ c, (s.client c).hasShut = true → (t.client c).hasShut = true := by
      refine hr.invariant
        (I := fun t => Down t ∧ ∀ c, (s.client c).hasShut = true → (t.client c).hasShut = true)
        ⟨first, fun _ shut => shut⟩ ?_
      intro u a v _ hI _ hs
      obtain ⟨ha, hs⟩ := only_eq_some.mp hs
      exact ⟨hI.1.of_settles ha (step_cases hs),
        fun c mine => hasShut_of_step (step_cases hs) c (hI.2 c mine)⟩
    have reach := h.trans (reach_of_only hr)
    have steady := reach_steady reach
    refine ⟨fun w => ?_, fun c mine => ?_⟩
    · exact (steady.blocked_or_exited stuck later.started w).symm
    · exact later.joined steady (reach_joinsThere reach) stuck c (shut c mine)

end

theorem destory_returns_of_one : ∃ s : Pool 1 (Fin 1) Nat,
    (s.client 0 = .broadcast ∧ s.worker 0 = .test) ∧ Halts (settle true) s ∧
      ∀ t, Reach (settle true) s t → Stuck (settle true) t →
        (∀ w, t.worker w = .exited ∨ t.worker w = .blocked) ∧
        ∀ c, (s.client c).hasShut = true → t.client c = .joined ∨
          ∃ w : Fin 1, t.client c = .join w ∧ t.worker w = .blocked := by
  obtain ⟨s, hs, hp⟩ := exists_reach (step true) Pool.init
    [.start, .start, .start, .start, .start, .work 0, .destory 0, .client 0 none,
      .client 0 none]
    (fun s : Pool 1 (Fin 1) Nat => decide ((s.client 0 = .broadcast ∧ s.worker 0 = .test) ∧
      s.start = .returned ∧ s.shutdown = true)) (by decide)
  obtain ⟨shown, started, down⟩ := of_decide_eq_true hp
  exact ⟨s, shown, destory_returns hs started down⟩

end Leano.PthreadPool
