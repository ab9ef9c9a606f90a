import Leano.PthreadPool.Continuations

universe u v

namespace Leano.PthreadPool

open Leano.Lib

variable {n : Nat} {C : Type v} {M : Type u}

namespace Core

/-- No task will be dequeued: the holder of the lock spins, or the pool is shut down and nobody is
on the way to the queue. -/
def Dry (c : Core M) : Prop :=
  (c.shutdown = false ∧ c.place = .worker .test ∧ c.curQueueSize = 0) ∨
  (c.shutdown = true ∧ c.place ≠ .worker .guard ∧ c.place ≠ .worker .front)

variable {c d : Core M}

theorem Dry.not_front (h : c.Dry) : c.place ≠ .worker .front := by
  rcases h with ⟨-, place, -⟩ | ⟨-, -, front⟩
  · rw [place]
    nofun
  · exact front

theorem Step.dry (hs : Step false c d) (h : c.Dry) (down : c.shutdown = true → d.shutdown = true) :
    d.Dry := by
  rcases h with ⟨up, place, size⟩ | ⟨shut, guard, front⟩
  · cases hs with
    | same => exact .inl ⟨up, place, size⟩
    | clear no => exact absurd place (no _)
    | shut => exact .inr ⟨rfl, by rw [place]; nofun, by rw [place]; nofun⟩
    | empty _ dbg => cases dbg
    | proceed _ go => exact absurd ⟨size, up⟩ go
    | _ hc => cases hc.symm.trans place
  · have shut' := down shut
    refine .inr ⟨shut', ?_⟩
    cases hs with
    | same => exact ⟨guard, front⟩
    | clear => exact ⟨guard, front⟩
    | shut => exact ⟨guard, front⟩
    | check => rw [shut]; exact ⟨nofun, nofun⟩
    | take hc => exact absurd hc guard
    | _ => exact ⟨nofun, nofun⟩

theorem Sound.settled_nonneg (h : c.Sound) : 0 ≤ c.settled := by
  unfold Sound settled at *
  cases hp : c.place with
  | free => exact h.1
  | worker pc => cases pc <;> simp [hp] at * <;> omega
  | client pc => cases pc <;> simp [hp] at * <;> omega

end Core

variable [DecidableEq C] {s t : Pool n C M} {a : Act n C M} {c : C} {m : M}

theorem shutdown_of_step {debug : Bool} (hs : Step debug s a t) (started : s.start = .returned)
    (down : s.shutdown = true) : t.shutdown = true := by
  cases hs with
  | clear hs => cases hs.symm.trans started
  | shut => rfl
  | _ => exact down

theorem returned_of_step {debug : Bool} (hs : Step debug s a t) (started : s.start = .returned) :
    t.start = .returned := by
  cases hs with
  | call hs => cases hs.symm.trans started
  | reset hs => cases hs.symm.trans started
  | clear hs => cases hs.symm.trans started
  | create _ hs => cases hs.symm.trans started
  | started => rfl
  | _ => exact started

theorem dequeued_of_step {debug : Bool} (hs : Step debug s a t) :
    t.dequeued = s.dequeued ∨ ∃ w, s.worker w = .front := by
  cases hs with
  | pop hw => exact .inr ⟨_, hw⟩
  | _ => exact .inl rfl

variable [DecidableEq M]

theorem dequeued_of_dry (order : InOrder s) (started : s.start = .returned) (dry : s.core.Dry)
    (h : Reach (step false) s t) : t.dequeued = s.dequeued := by
  have kept : InOrder t ∧ t.start = .returned ∧ t.core.Dry ∧ t.dequeued = s.dequeued := by
    refine h.invariant
      (I := fun t => InOrder t ∧ t.start = .returned ∧ t.core.Dry ∧ t.dequeued = s.dequeued)
      ⟨order, started, dry, rfl⟩ ?_
    rintro t a u - ⟨order, started, dry, same⟩ - hs
    have hs := step_cases hs
    have other : ¬ Resets t a := fun now => by cases now.2.symm.trans started
    have core := core_of_step order.booting order.locked hs other
    refine ⟨order.step hs, returned_of_step hs started,
      core.dry dry (shutdown_of_step hs started), ?_⟩
    rcases dequeued_of_step hs with kept | ⟨w, hw⟩
    · exact kept.trans same
    · exact absurd (order.locked.place_worker hw rfl) dry.not_front
  exact kept.2.2.2

theorem mem_dequeued (h : Reach (step false) Pool.init s) (hm : m ∈ s.executed.map Prod.snd) :
    m ∈ s.dequeued.map Prod.snd := by
  have done : m ∈ tasks s.executed := hm
  have held : m ∈ tasks s.dequeued := by
    rw [(reach_handled h).dequeued]
    exact Multiset.mem_add.mpr (.inr done)
  exact held

theorem submitted_of_dequeued (h : Reach (step false) Pool.init s)
    (hm : m ∈ s.dequeued.map Prod.snd) : m ∈ s.submitted := by
  obtain ⟨ch, hr⟩ := reach_represents h
  rw [hr.law]
  exact List.mem_append_left _ hm

theorem not_executed_of_spin (h : Reach (step false) Pool.init s) (started : s.start = .returned)
    (up : s.shutdown = false) (hc : s.client c = .lock m) {w : Fin n} (hw : s.worker w = .test)
    (size : s.curQueueSize = 0) (ht : Reach (step false) s t) : m ∉ t.executed.map Prod.snd := by
  intro done
  have order := reach_inOrder h
  have dry : s.core.Dry := .inl ⟨up, order.locked.place_worker hw rfl, size⟩
  have taken := mem_dequeued (h.trans ht) done
  rw [dequeued_of_dry order started dry ht] at taken
  exact (reach_offered h).pending_new c m (by rw [hc]; rfl) (submitted_of_dequeued h taken)

def ClientPc.isPending (pc : ClientPc M) : Bool := pc.pending.isSome

inductive Behind [Fintype C] (N : Nat) (c : C) (m : M) (s : Pool n C M) : Prop
  | waiting (pc : s.client c = .lock m) (bound : count ClientPc.waits s.client ≤ N)
  | pushing (pc : s.client c = .push m) (bound : count ClientPc.waits s.client < N)
  | pushed {pre post} (submitted : s.submitted = pre ++ m :: post)
      (bound : post.length + count ClientPc.isPending s.client < N)

omit [DecidableEq C] [DecidableEq M] in
theorem lock_iff (pc : ClientPc M) : pc = .lock m ↔ pc.waits = true ∧ pc.pending = some m := by
  cases pc <;> simp [ClientPc.waits, ClientPc.pending]

omit [DecidableEq C] [DecidableEq M] in
theorem push_iff (pc : ClientPc M) : pc = .push m ↔ pc.waits = false ∧ pc.pending = some m := by
  cases pc <;> simp [ClientPc.waits, ClientPc.pending]

omit [DecidableEq M] in
theorem isPending_of_pushing (locked : Locked s) (hc : s.client c = .push m) (d : C) :
    (Function.update s.client c .load d).isPending = (s.client d).waits := by
  by_cases hd : d = c
  · subst hd
    rw [Function.update_self, hc]
    rfl
  · rw [Function.update_of_ne hd]
    cases pc : s.client d with
    | push newMsg =>
      have same := (locked.client pc rfl).symm.trans (locked.client hc rfl)
      cases same
      exact absurd rfl hd
    | _ => rfl

omit [DecidableEq M] in
theorem Behind.step [Fintype C] {N : Nat} (h : Behind N c m s) (locked : Locked s)
    (hs : Offers s a t) (call : a.isCall = false) : Behind N c m t := by
  cases hs with
  | add add => rw [add] at call; cases call
  | @acquire d newMsg pc free _ submitted client =>
    have fewer := count_update ClientPc.waits s.client d (.push newMsg)
    have same := count_update ClientPc.isPending s.client d (.push newMsg)
    rw [pc] at fewer same
    simp only [ClientPc.waits, ClientPc.isPending, ClientPc.pending, Option.isSome, Bool.toNat_true,
      Bool.toNat_false] at fewer same
    rw [← client] at fewer same
    cases h with
    | waiting hc bound =>
      by_cases hd : d = c
      · subst hd
        cases hc.symm.trans pc
        exact .pushing (by rw [client, Function.update_self]) (by omega)
      · exact .waiting (by rw [client, Function.update_of_ne (Ne.symm hd), hc]) (by omega)
    | pushing hc bound => cases free.symm.trans (locked.client hc rfl)
    | pushed sub bound => exact .pushed (submitted.trans sub) (by omega)
  | @push d newMsg pc _ submitted client =>
    have same := count_update ClientPc.waits s.client d .load
    have fewer := count_update ClientPc.isPending s.client d .load
    rw [pc] at fewer same
    simp only [ClientPc.waits, ClientPc.isPending, ClientPc.pending, Option.isSome, Bool.toNat_true,
      Bool.toNat_false] at fewer same
    cases h with
    | waiting hc bound =>
      have hd : c ≠ d := by
        rintro rfl
        cases hc.symm.trans pc
      rw [← client] at same
      exact .waiting (by rw [client, Function.update_of_ne hd, hc]) (by omega)
    | pushing hc bound =>
      cases (locked.client pc rfl).symm.trans (locked.client hc rfl)
      cases pc.symm.trans hc
      have left : count ClientPc.isPending t.client = count ClientPc.waits s.client := by
        rw [client]
        exact total_congr fun d => congrArg Bool.toNat (isPending_of_pushing locked hc d)
      exact .pushed submitted (by rw [List.length_nil]; omega)
    | @pushed pre post sub bound =>
      rw [← client] at fewer
      have longer : t.submitted = pre ++ m :: (post ++ [newMsg]) := by
        rw [submitted, sub, List.append_assoc, List.cons_append]
      exact .pushed longer (by rw [List.length_append, List.length_singleton]; omega)
  | other _ submitted waits pending =>
    have same : count ClientPc.waits t.client = count ClientPc.waits s.client :=
      total_congr fun d => congrArg Bool.toNat (waits d)
    cases h with
    | waiting hc bound =>
      rw [lock_iff, ← waits, ← pending, ← lock_iff] at hc
      exact .waiting hc (same.trans_le bound)
    | pushing hc bound =>
      rw [push_iff, ← waits, ← pending, ← push_iff] at hc
      exact .pushing hc (same.trans_lt bound)
    | pushed sub bound =>
      have left : count ClientPc.isPending t.client = count ClientPc.isPending s.client :=
        total_congr fun d => by rw [ClientPc.isPending, pending, ClientPc.isPending]
      exact .pushed (submitted.trans sub) (by rw [left]; exact bound)

omit [DecidableEq M] in
theorem length_le_of_taken {taken left pre post : List M} (h : taken ++ left = pre ++ m :: post)
    (once : (pre ++ m :: post).Nodup) (hm : m ∈ taken) : left.length ≤ post.length := by
  have new : m ∉ pre := fun old => (List.nodup_append.mp once).2.2 m old m List.mem_cons_self rfl
  obtain ⟨more, rfl, -⟩ | ⟨more, rfl, rest⟩ := List.append_eq_append_iff.mp h
  · exact absurd (List.mem_append_left _ hm) new
  · cases more with
    | nil => exact absurd (by simpa using hm) new
    | cons first more =>
      cases rest
      exact (Nat.le_add_left _ _).trans List.length_append.ge

variable [Fintype C]

theorem lag_lt_of_executed (h : Reach (step false) Pool.init s) (started : s.start = .returned)
    (hc : s.client c = .lock m) (ht : GoesOn s t) (done : m ∈ t.executed.map Prod.snd) :
    s.core.lag < count ClientPc.waits s.client := by
  have reached := h.trans ht.reach
  have behind : InOrder t ∧ Behind (count ClientPc.waits s.client) c m t := by
    refine ht.invariant
      (I := fun t => InOrder t ∧ Behind (count ClientPc.waits s.client) c m t)
      ⟨reach_inOrder h, .waiting hc le_rfl⟩ ?_
    rintro t a u - ⟨order, behind⟩ call hs
    have hs := step_cases hs
    exact ⟨order.step hs, behind.step order.locked (offers_of_step hs) call⟩
  obtain ⟨order, behind⟩ := behind
  have taken := mem_dequeued reached done
  have submitted := submitted_of_dequeued reached taken
  have offered := reach_offered reached
  have lag := lag_of_reach (reach_inOrder h) (by rw [started]; rfl) ht.reach
  have settled := order.sound.settled_nonneg
  obtain ⟨ch, hr⟩ := reach_represents reached
  cases behind with
  | waiting pc => exact absurd submitted (offered.pending_new c m (by rw [pc]; rfl))
  | pushing pc => exact absurd submitted (offered.pending_new c m (by rw [pc]; rfl))
  | pushed sub bound =>
    have once := offered.once
    rw [sub] at once
    have left := length_le_of_taken (hr.law.symm.trans sub) once taken
    have size : t.core.lag = t.queueB.length - t.core.settled := rfl
    omega

/-- The holder gives the lock back, `c` pushes its task and the others theirs, and then a worker
serves the queue. -/
theorem exists_goesOn (h : Reach (step false) Pool.init s) (started : s.start = .returned)
    (some : 0 < n) (up : s.shutdown = false) (hc : s.client c = .lock m)
    (go : ¬ ∃ w, s.worker w = .test ∧ s.curQueueSize = 0)
    (few : s.core.lag < count ClientPc.waits s.client) :
    ∃ t, GoesOn s t ∧ m ∈ t.executed.map Prod.snd := by
  obtain ⟨t₁, h₁, free₁, keeps⟩ := drains (reach_inOrder h) (reach_normal h) up go
  have lag := lag_of_reach (reach_inOrder h) (by rw [started]; rfl) h₁.reach
  rw [lag_eq free₁] at lag
  have hc₁ := keeps.waiting c m hc
  have more : count ClientPc.waits s.client ≤ count ClientPc.waits t₁.client := by
    refine Finset.sum_le_sum fun d _ => ?_
    cases pc : s.client d with
    | lock newMsg => rw [keeps.waiting d newMsg pc]
    | _ => exact Nat.zero_le _
  have fewer := count_update ClientPc.waits t₁.client c .signal
  rw [hc₁] at fewer
  simp only [ClientPc.waits, Bool.toNat_true, Bool.toNat_false] at fewer
  obtain ⟨t₂, xs, h₂, free₂, start₂, up₂, queue, length, size⟩ :=
    exists_all_added (s := t₁.added c m) _ free₁ rfl
  have h₂ := h₁.trans ((goesOn_added free₁ hc₁).trans h₂)
  have reached := h.trans h₂.reach
  have started₂ := start₂.trans (keeps.start.trans started)
  have up₂ := up₂.trans (keeps.shutdown.trans up)
  obtain ⟨t₃, h₃, ready, free₃, up₃, queue₃, size₃⟩ := exists_ready (reach_inOrder reached)
    (reach_normal reached) started₂ up₂ free₂ ⟨0, some⟩
  have queue : t₃.queueB = t₁.queueB ++ m :: xs := by
    rw [queue₃, queue]
    simp [Pool.added, Pool.setClient]
  have enough : (t₁.queueB.length : Int) < t₃.curQueueSize := by
    simp only [Pool.added, Pool.setClient] at size length
    omega
  obtain ⟨t₄, h₄, done⟩ := exists_executed _ free₃ ready up₃ queue enough
  exact ⟨t₄, h₂.trans (h₃.trans h₄), done⟩

/-- A waiting `pool_add_worker` can get its task executed exactly if no worker spins with the lock
and fewer tasks are uncounted than clients wait. -/
theorem accepts_iff (h : Reach (step false) Pool.init s) (started : s.start = .returned)
    (some : 0 < n) (up : s.shutdown = false) (hc : s.client c = .lock m) :
    (∃ t, GoesOn s t ∧ m ∈ t.executed.map Prod.snd) ↔
      (¬ ∃ w, s.worker w = .test ∧ s.curQueueSize = 0) ∧
        s.core.lag < count ClientPc.waits s.client := by
  constructor
  · rintro ⟨t, ht, done⟩
    refine ⟨?_, lag_lt_of_executed h started hc ht done⟩
    rintro ⟨w, hw, size⟩
    exact not_executed_of_spin h started up hc hw size ht.reach done
  · rintro ⟨go, few⟩
    exact exists_goesOn h started some up hc go few

theorem accepts_iff_of_one : ∃ s : Pool 1 (Fin 1) Nat,
    ((∃ t, GoesOn s t ∧ 7 ∈ t.executed.map Prod.snd) ↔
      (¬ ∃ w, s.worker w = .test ∧ s.curQueueSize = 0) ∧
        s.core.lag < count ClientPc.waits s.client) ∧
    (¬ ∃ w, s.worker w = .test ∧ s.curQueueSize = 0) ∧
      s.core.lag < count ClientPc.waits s.client := by
  obtain ⟨s, hs, hp⟩ := exists_reach (step false) Pool.init
    [.start, .start, .start, .start, .start, .add 0 7]
    (fun s : Pool 1 (Fin 1) Nat => decide ((s.start = .returned ∧ s.shutdown = false ∧
      s.client 0 = .lock 7) ∧ (¬ ∃ w, s.worker w = .test ∧ s.curQueueSize = 0) ∧
        s.core.lag < count ClientPc.waits s.client)) (by decide)
  obtain ⟨⟨started, up, hc⟩, condition⟩ := of_decide_eq_true hp
  exact ⟨s, accepts_iff hs started (by decide) up hc, condition⟩

/-- An idle worker spins with the lock, and the client that waits for it never gets it. -/
theorem shut_out_of_idle_worker :
    ¬ ∀ s : Pool 1 (Fin 1) Nat, Reach (step false) Pool.init s → s.start = .returned →
      s.shutdown = false → ∀ c m, s.client c = .lock m →
        ∃ t, Reach (step false) s t ∧ m ∈ t.executed.map Prod.snd := by
  intro all
  obtain ⟨s, hs, hp⟩ := exists_reach (step false) Pool.init
    [.start, .start, .start, .start, .start, .work 0, .add 0 7]
    (fun s : Pool 1 (Fin 1) Nat => decide (s.start = .returned ∧ s.shutdown = false ∧
      s.client 0 = .lock 7 ∧ s.worker 0 = .test ∧ s.curQueueSize = 0)) (by decide)
  obtain ⟨started, up, hc, hw, size⟩ := of_decide_eq_true hp
  obtain ⟨t, ht, done⟩ := all s hs started up 0 7 hc
  exact not_executed_of_spin hs started up hc hw size ht done

end Leano.PthreadPool
