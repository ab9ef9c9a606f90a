import Leano.Lib.Halting
import Leano.ThreadPool.Signals

universe u v

namespace Leano.ThreadPool

open Leano.Lib

variable {n : Nat} {C : Type v} {T : Type u}

def Act.holdsOn : Act n C T → Bool
  | .continues _ => false
  | _ => true

def WorkerPc.behind : WorkerPc T → Nat
  | .take => 1
  | .test _ => 1
  | .process _ => 1
  | _ => 0

def Pool.late (s : Pool n C T) (w : Fin n) : Nat :=
  (s.worker w).behind + (s.sigusr1 w).toNat

def Pool.budget (s : Pool n C T) (w : Fin n) : Nat := (logOf s.calls w).length + s.late w

def NoRelease (s : Pool n C T) : Prop := ∀ d, (s.client d).toWrite false = none

def Flagged (s : Pool n C T) (w : Fin n) : Prop := s.waitsig w = true ∨ s.worker w = .exited

theorem late_le_two (s : Pool n C T) (w : Fin n) : s.late w ≤ 2 := by
  have one : (s.worker w).behind ≤ 1 := by
    cases s.worker w <;> first | exact le_rfl | exact Nat.zero_le 1
  exact Nat.add_le_add one (Bool.toNat_le _)

variable [DecidableEq C] {s s' t u : Pool n C T} {a : Act n C T} {c : C} {w : Fin n}

namespace NoRelease

omit [DecidableEq C] in
theorem not_kill (h : NoRelease s) {d : C} {rest : List (Fin n)} : s.client d ≠ .kill rest := by
  intro hd
  cases (congrArg (·.toWrite false) hd).symm.trans (h d)

omit [DecidableEq C] in
theorem not_clear (h : NoRelease s) {d : C} {v : Fin n} {rest : List (Fin n)} :
    s.client d ≠ .clear v rest := by
  intro hd
  cases (congrArg (·.toWrite false) hd).symm.trans (h d)

theorem step (h : NoRelease s) (ha : a.holdsOn = true) (hs : Signals s a s') : NoRelease s' := by
  have moved : ∀ {d : C} {pc : ClientPc n}, pc.toWrite false = none →
      ∀ e, (Function.update s.client d pc e).toWrite false = none :=
    fun new => forall_update (Q := fun pc : ClientPc n => pc.toWrite false = none) h new
  cases hs with
  | continues => cases ha
  | pause => exact moved rfl
  | pauseNext => exact moved rfl
  | pauseDone => exact moved rfl
  | killNext hc => exact absurd hc h.not_kill
  | killDone hc => exact absurd hc h.not_kill
  | clear hc => exact absurd hc h.not_clear
  | other _ _ _ rounds =>
    intro d
    rw [toWrite_of_round (rounds d)]
    exact h d
  | _ => exact h

theorem flagged (h : NoRelease s) (set : Flagged s w) (hs : Signals s a s')
    (exits : s.worker w = .exited → s'.worker w = .exited) : Flagged s' w := by
  refine set.imp (fun set => ?_) exits
  cases hs with
  | @pauseNext d v rest =>
    by_cases same : w = v
    · subst same
      exact Function.update_self ..
    · exact (Function.update_of_ne same _ _).trans set
  | clear hc => exact absurd hc h.not_clear
  | other _ flags => exact flags ▸ set
  | _ => exact set

end NoRelease

def SetsAll (s : Pool n C T) (c : C) : Prop :=
  ∀ w, Flagged s w ∨ ∃ rest ∈ (s.client c).toWrite true, w ∈ rest

theorem SetsAll.step (h : SetsAll s c) (nobody : NoRelease s) (ha : a.holdsOn = true)
    (hs : Signals s a s') (exits : ∀ w, s.worker w = .exited → s'.worker w = .exited) :
    SetsAll s' c := by
  intro w
  rcases h w with set | ⟨rest, hrest, hw⟩
  · exact .inl (nobody.flagged set hs (exits w))
  · have apart : ∀ {d : C} {pc : ClientPc n}, c ≠ d →
        ∃ rest ∈ (Function.update s.client d pc c).toWrite true, w ∈ rest := by
      intro d pc other
      rw [Function.update_of_ne other]
      exact ⟨rest, hrest, hw⟩
    cases hs with
    | continues => cases ha
    | killNext hc => exact absurd hc nobody.not_kill
    | killDone hc => exact absurd hc nobody.not_kill
    | clear hc => exact absurd hc nobody.not_clear
    | @pause d hc =>
      refine .inr (apart ?_)
      rintro rfl
      cases (congrArg (·.toWrite true) hc).symm.trans hrest
    | @pauseDone d hc =>
      refine .inr (apart ?_)
      rintro rfl
      cases (congrArg (·.toWrite true) hc).symm.trans hrest
      cases hw
    | @pauseNext d v left hc =>
      by_cases same : w = v
      · subst same
        exact .inl (.inl (Function.update_self ..))
      · by_cases mine : c = d
        · subst mine
          cases (congrArg (·.toWrite true) hc).symm.trans hrest
          have there : w ∈ left := (List.mem_cons.mp hw).resolve_left same
          have now : Function.update s.client c (.pause left) c = .pause left :=
            Function.update_self ..
          exact .inr ⟨left, congrArg (·.toWrite true) now, there⟩
        · exact .inr (apart mine)
    | other _ _ _ rounds => exact .inr ⟨rest, (toWrite_of_round (rounds c) true).trans hrest, hw⟩
    | _ => exact .inr ⟨rest, hrest, hw⟩

variable [Fintype C]

omit [Fintype C] [DecidableEq C] in
theorem budget_of_worker {v : Fin n} {pc : WorkerPc T}
    (worker : s'.worker = Function.update s.worker v pc) (calls : s'.calls = s.calls)
    (pending : s'.sigusr1 = s.sigusr1) (less : w = v → pc.behind ≤ (s.worker w).behind) :
    s'.budget w ≤ s.budget w := by
  simp only [Pool.budget, Pool.late, calls, pending, worker]
  refine Nat.add_le_add_left (Nat.add_le_add_right ?_ _) _
  by_cases same : w = v
  · subst same
    rw [Function.update_self]
    exact less rfl
  · rw [Function.update_of_ne same]

theorem budget_of_step (set : Flagged s w) (nobody : NoRelease s) (hs : Step s a s') :
    s'.budget w ≤ s.budget w := by
  cases hs with
  | killNext hc => exact absurd hc nobody.not_kill
  | @loop v ret hw =>
    refine budget_of_worker rfl rfl rfl fun _ => ?_
    split <;> exact Nat.zero_le _
  | check => exact budget_of_worker rfl rfl rfl fun _ => Nat.zero_le _
  | @enterTake v ret q hw flag =>
    refine budget_of_worker rfl rfl rfl fun same => ?_
    subst same
    rcases set with set | gone
    · cases set.symm.trans flag
    · cases gone.symm.trans hw
  | @signalled v q hw pending =>
    by_cases same : w = v
    · subst same
      simp [Pool.budget, Pool.late, Pool.setWorker, hw, pending, WorkerPc.behind]
    · simp [Pool.budget, Pool.late, Pool.setWorker, Function.update_of_ne same]
  | interrupted => exact budget_of_worker rfl rfl rfl fun _ => Nat.zero_le _
  | failed => exact budget_of_worker rfl rfl rfl fun _ => Nat.zero_le _
  | @take v ret task q hw =>
    refine budget_of_worker rfl rfl rfl fun same => ?_
    subst same
    rw [hw]
    exact le_rfl
  | @test v ret task hw =>
    refine budget_of_worker rfl rfl rfl fun same => ?_
    subst same
    rw [hw]
    exact le_rfl
  | @drop v ret task =>
    cases task <;> exact budget_of_worker rfl rfl rfl fun _ => Nat.zero_le _
  | @process v ret task hw =>
    by_cases same : w = v
    · subst same
      simp [Pool.budget, Pool.late, Pool.setWorker, hw, WorkerPc.behind]
      omega
    · simp [Pool.budget, Pool.late, Pool.setWorker, Function.update_of_ne same,
        logOf_single_of_ne (Ne.symm same)]
  | _ => exact le_rfl

abbrev holdOn : Pool n C T → Act n C T → Option (Pool n C T) := only Act.holdsOn step

theorem setsAll_of_holdOn (h : NoRelease s ∧ SetsAll s c) (hr : Reach holdOn s t) :
    NoRelease t ∧ SetsAll t c := by
  refine hr.invariant (I := fun t => NoRelease t ∧ SetsAll t c) h ?_
  rintro u a v - ⟨nobody, sets⟩ - hs
  obtain ⟨ha, hs⟩ := only_eq_some.mp hs
  have hs := step_cases hs
  refine ⟨nobody.step ha (signals_of_step hs), sets.step nobody ha (signals_of_step hs) ?_⟩
  exact fun w => (view_of_step hs w).exited

theorem budget_of_holdOn (set : Flagged t w) (nobody : NoRelease t) (hr : Reach holdOn t u) :
    u.budget w ≤ t.budget w := by
  refine (hr.invariant (I := fun u => (Flagged u w ∧ NoRelease u) ∧ u.budget w ≤ t.budget w)
    ⟨⟨set, nobody⟩, le_rfl⟩ ?_).2
  rintro u a v - ⟨⟨set, nobody⟩, less⟩ - hs
  obtain ⟨ha, hs⟩ := only_eq_some.mp hs
  have hs := step_cases hs
  have set' := nobody.flagged set (signals_of_step hs) (view_of_step hs w).exited
  exact ⟨⟨set', nobody.step ha (signals_of_step hs)⟩, (budget_of_step set nobody hs).trans less⟩

/-- A client calls `Pause` while nobody is inside of `Continues`, and nobody calls `Continues`
again. From the return of `Pause` on each worker serves two tasks at most: one that it was about to
take or had taken, and one for a signal that was pending. -/
theorem overruns (h : Reach step Pool.init s) (called : s.client c = .pause s.threadgroup)
    (nobody : NoRelease s) (pause : Reach holdOn s t) (returned : t.client c = .idle)
    (later : Reach holdOn t u) (w : Fin n) :
    (logOf u.calls w).length + u.late w ≤ (logOf t.calls w).length + t.late w ∧ t.late w ≤ 2 := by
  have starts : SetsAll s c := by
    intro w
    rcases mem_threadgroup (reach_stopping h) w with gone | there
    · exact .inl (.inr gone)
    · exact .inr ⟨s.threadgroup, congrArg (·.toWrite true) called, there⟩
  obtain ⟨quiet, sets⟩ := setsAll_of_holdOn ⟨nobody, starts⟩ pause
  refine ⟨?_, late_le_two t w⟩
  rcases sets w with set | ⟨rest, left, -⟩
  · exact budget_of_holdOn set quiet later
  · cases (congrArg (·.toWrite true) returned).symm.trans left

theorem overruns_of_one : ∃ t u : Pool 1 (Fin 1) Nat,
    (t.client 0 = .idle ∧ t.calls = [] ∧ u.calls = [(0, some 7), (0, some 8)]) ∧
      (logOf u.calls 0).length + u.late 0 ≤ (logOf t.calls 0).length + t.late 0 ∧
        t.late 0 ≤ 2 := by
  obtain ⟨s, hs, hp⟩ := exists_reach step Pool.init
    [.addData 0 7, .queue (.run (.inr 0) none), .client 0, .addData 0 8,
      .queue (.run (.inr 0) none), .client 0, .continues 0, .client 0, .client 0, .client 0,
      .work 0 .zero, .work 0 .zero, .queue (.run (.inl 0) none), .work 0 .zero, .work 0 .zero,
      .pause 0]
    (fun s : Pool 1 (Fin 1) Nat => decide (s.client 0 = .pause s.threadgroup ∧
      (∀ d, (s.client d).toWrite false = none) ∧
      ((runIf holdOn (fun _ _ => True) s [.client 0, .client 0]).any fun t =>
        decide ((t.client 0 = .idle ∧ t.calls = []) ∧
          ((runIf holdOn (fun _ _ => True) t [.work 0 .zero, .work 0 .zero, .work 0 .zero,
            .work 0 .zero, .queue (.run (.inl 0) none), .work 0 .zero, .work 0 .zero,
            .work 0 .zero]).any fun u =>
              decide (u.calls = [(0, some 7), (0, some 8)])) = true)) = true)) (by decide)
  obtain ⟨called, nobody, ht⟩ := of_decide_eq_true hp
  obtain ⟨t, ht, hp⟩ := exists_reach holdOn s _ _ ht
  obtain ⟨⟨returned, none⟩, hu⟩ := of_decide_eq_true hp
  obtain ⟨u, hu, two⟩ := exists_reach holdOn t _ _ hu
  exact ⟨t, u, ⟨returned, none, of_decide_eq_true two⟩,
    overruns hs called nobody ht returned hu 0⟩

end Leano.ThreadPool
