import Leano.PthreadPool.Core

universe u v

namespace Leano.PthreadPool

open Leano.Lib

variable {n : Nat} {C : Type v} {M : Type u}

namespace Core

/-- The counter as it is when the holder of the lock is through with what it has begun. -/
def settled (c : Core M) : Int :=
  match c.place with
  | .client .load => c.curQueueSize + 1
  | .client (.store cur) => cur + 1
  | .worker .front => c.curQueueSize + 1
  | .worker .fault => c.curQueueSize + 1
  | _ => c.curQueueSize

def lag (c : Core M) : Int := c.queueB.length - c.settled

/-- What `start` finds when it resets the counter leaves the counter right: an empty queue, or a
push whose increment is still to come, and nothing else. -/
def resettable (c : Core M) : Bool :=
  match c.place with
  | .client .load => c.queueB.length == 1
  | .client (.store _) => true
  | _ => c.queueB.isEmpty

def Sound (c : Core M) : Prop :=
  0 ≤ c.curQueueSize ∧
  match c.place with
  | .client .load => c.curQueueSize + 1 ≤ c.queueB.length
  | .client (.store cur) => 0 ≤ cur ∧ cur + 1 ≤ c.queueB.length
  | .worker .check =>
    c.curQueueSize ≤ c.queueB.length ∧ (c.curQueueSize ≠ 0 ∨ c.shutdown = true)
  | .worker .guard => 0 < c.curQueueSize ∧ c.curQueueSize ≤ c.queueB.length
  | .worker .front => c.curQueueSize + 1 ≤ c.queueB.length
  | .worker .relock => False
  | .worker .fault => False
  | _ => c.curQueueSize ≤ c.queueB.length

variable {debug : Bool} {c d : Core M}

theorem Step.lag (hs : Step debug c d) : d.lag = c.lag := by
  cases hs with
  | same => rfl
  | clear => rfl
  | shut => rfl
  | check hc => cases down : c.shutdown <;> simp [Core.lag, settled, hc]
  | pop hc hq => simp [Core.lag, settled, hc, hq]
  | _ hc => simp [Core.lag, settled, hc]

theorem lag_reset (h : c.lag = 0) (no : ∀ pc, c.place ≠ .worker pc) :
    c.reset.lag = 0 ↔ c.resettable = true := by
  unfold Core.lag settled resettable reset at *
  cases hp : c.place with
  | free => simp
  | worker pc => exact absurd hp (no pc)
  | client pc =>
    cases pc with
    | load => simp; omega
    | store cur => simpa [hp] using h
    | _ => simp

theorem lag_eq_of_free (h : c.place = .free) : c.lag = c.queueB.length - c.curQueueSize := by
  simp [Core.lag, settled, h]

theorem Sound.reset (h : c.Sound) (no : ∀ pc, c.place ≠ .worker pc) : c.reset.Sound := by
  unfold Sound Core.reset at *
  cases hp : c.place with
  | free => simp
  | worker pc => exact absurd hp (no pc)
  | client pc =>
    cases pc with
    | load => simp [hp] at *; omega
    | store cur => simpa [hp] using h.2
    | _ => simp

theorem Step.sound (hs : Step debug c d) (h : c.Sound) : d.Sound := by
  cases hs with
  | same => exact h
  | clear no =>
    unfold Sound at *
    cases hp : c.place with
    | free => simpa [hp] using h
    | worker pc => exact absurd hp (no pc)
    | client pc => cases pc <;> simpa [hp] using h
  | shut =>
    unfold Sound at *
    cases hp : c.place with
    | free => simpa [hp] using h
    | worker pc =>
      cases pc with
      | check => exact ⟨h.1, by simp [hp] at *; omega⟩
      | relock => simp [hp] at h
      | fault => simp [hp] at h
      | _ => simpa [hp] using h
    | client pc => cases pc <;> simpa [hp] using h
  | check hc =>
    cases down : c.shutdown <;> simp [Sound, hc, down] at * <;> omega
  | pop hc hq => simp [Sound, hc, hq] at *; omega
  | fault hc hq => simp [Sound, hc, hq] at *; omega
  | relock hc none => simp [Sound, hc] at *; omega
  | proceed hc go => simp [Sound, hc] at *; exact ⟨h.1, h.2, by tauto⟩
  | _ hc => simp [Sound, hc] at *; omega

end Core

/-- What holds of the pool in every state. -/
structure InOrder (s : Pool n C M) : Prop where
  booting : Booting s
  locked : Locked s
  sound : s.core.Sound

theorem inOrder_init : InOrder (Pool.init : Pool n C M) where
  booting := fun _ => rfl
  locked := by
    intro t
    cases t <;> simp [Pool.inside, Pool.init, WorkerPc.inside, ClientPc.inside]
  sound := ⟨le_rfl, le_rfl⟩

def ResetsRight (s : Pool n C M) (a : Act n C M) : Prop :=
  Resets s a → s.core.resettable = true

instance [DecidableEq C] [DecidableEq M] (s : Pool n C M) (a : Act n C M) :
    Decidable (Resets s a) := inferInstanceAs (Decidable (_ ∧ _))

instance [DecidableEq C] [DecidableEq M] (s : Pool n C M) (a : Act n C M) :
    Decidable (ResetsRight s a) := inferInstanceAs (Decidable (_ → _))

variable {debug : Bool} {s s' u : Pool n C M} {a : Act n C M}

theorem lag_eq (free : s.queueLock = none) :
    s.core.lag = s.queueB.length - s.curQueueSize :=
  Core.lag_eq_of_free (by simp [Pool.core, Pool.place, free])

theorem InOrder.no_worker (h : InOrder s) (now : Resets s a) : ∀ pc, s.core.place ≠ .worker pc :=
  PthreadPool.no_worker h.booting h.locked (by rw [now.2]; rfl)

theorem InOrder.size_le (h : InOrder s) (free : s.queueLock = none) :
    0 ≤ s.curQueueSize ∧ s.curQueueSize ≤ s.queueB.length := by
  have sound := h.sound
  simpa only [Core.Sound, Pool.core, Pool.place, free] using sound

theorem InOrder.front (h : InOrder s) {w : Fin n} (hw : s.worker w = .front) : s.queueB ≠ [] := by
  have sound := h.sound
  rw [Core.Sound, h.locked.place_worker hw rfl] at sound
  intro empty
  have size : (0 : Int) ≤ s.curQueueSize ∧ s.curQueueSize + 1 ≤ s.queueB.length := sound
  rw [empty, List.length_nil] at size
  omega

theorem InOrder.no_fault (h : InOrder s) (w : Fin n) : s.worker w ≠ .fault := by
  intro hw
  have sound := h.sound
  rw [Core.Sound, h.locked.place_worker hw rfl] at sound
  exact sound.2

variable [DecidableEq C]

theorem InOrder.step (h : InOrder s) (hs : Step debug s a s') : InOrder s' where
  booting := h.booting.step hs
  locked := h.locked.step h.booting hs
  sound := by
    by_cases now : Resets s a
    · rw [core_of_reset now hs]
      exact h.sound.reset (h.no_worker now)
    · exact (core_of_step h.booting h.locked hs now).sound h.sound

theorem lag_of_reset (h : InOrder s) (hs : Step debug s a s') (now : Resets s a)
    (right : s.core.lag = 0) : s'.core.lag = 0 ↔ s.core.resettable = true := by
  rw [core_of_reset now hs]
  exact Core.lag_reset right (h.no_worker now)

variable [DecidableEq M]

theorem reach_inOrder (h : Reach (step debug) Pool.init s) : InOrder s :=
  h.invariant (I := InOrder) inOrder_init fun _ _ _ _ ih _ hs => ih.step (step_cases hs)

theorem reach_lag (h : ReachIf (step debug) ResetsRight Pool.init s) : s.core.lag = 0 := by
  refine h.invariant (I := fun s => s.core.lag = 0) rfl ?_
  intro s a s' hr right safe hs
  have order := reach_inOrder hr.reach
  by_cases now : Resets s a
  · exact (lag_of_reset order (step_cases hs) now right).mpr (safe now)
  · rw [(core_of_step order.booting order.locked (step_cases hs) now).lag]
    exact right

def StartPc.isPast : StartPc → Bool
  | .fresh => false
  | .reset => false
  | _ => true

omit [DecidableEq M] in
theorem isPast_of_step (past : s.start.isPast = true) (hs : Step debug s a s') :
    s'.start.isPast = true := by
  cases hs with
  | call hs => rw [hs] at past; cases past
  | reset => rfl
  | clear => rfl
  | create => rfl
  | started => rfl
  | _ => exact past

theorem lag_of_reach (order : InOrder s) (past : s.start.isPast = true)
    (h : Reach (step debug) s u) : u.core.lag = s.core.lag := by
  have kept : InOrder u ∧ u.start.isPast = true ∧ u.core.lag = s.core.lag := by
    refine h.invariant (I := fun u => InOrder u ∧ u.start.isPast = true ∧ u.core.lag = s.core.lag)
      ⟨order, past, rfl⟩ ?_
    rintro v a v' - ⟨order, past, lag⟩ - hs
    have hs := step_cases hs
    have other : ¬ Resets v a := by
      rintro ⟨-, now⟩
      rw [now] at past
      cases past
    refine ⟨order.step hs, isPast_of_step past hs, ?_⟩
    rw [(core_of_step order.booting order.locked hs other).lag, lag]
  exact kept.2.2

/-- While the reset does no harm the counter is the length of the queue whenever the lock is free;
and a reset does no harm exactly if the counter is right ever after. -/
theorem counter_tells_truth (h : ReachIf (step debug) ResetsRight Pool.init s) :
    (s.queueLock = none → s.curQueueSize = s.queueB.length) ∧
    ∀ s', s.start = .reset → step debug s .start = some s' →
      ∀ u, Reach (step debug) s' u → u.queueLock = none →
        (u.curQueueSize = u.queueB.length ↔ ResetsRight s .start) := by
  have right := reach_lag h
  constructor
  · intro free
    rw [lag_eq free] at right
    omega
  · intro s' now hs u hu free
    have resets : Resets s .start := ⟨rfl, now⟩
    have order := reach_inOrder h.reach
    have past : s'.start.isPast = true := by
      simp only [step, Pool.startStep, now] at hs
      cases hs
      rfl
    have lag := lag_of_reach (order.step (step_cases hs)) past hu
    rw [lag_eq free] at lag
    have moved := lag_of_reset order (step_cases hs) resets right
    rw [← lag] at moved
    constructor
    · intro equal _
      exact moved.mp (by omega)
    · intro safe
      have none := moved.mpr (safe resets)
      omega

theorem counter_tells_truth_of_one :
    ∃ s : Pool 1 (Fin 1) Nat, (s.start = .returned ∧ s.queueB = [7] ∧ s.curQueueSize = 1) ∧
      (s.queueLock = none → s.curQueueSize = s.queueB.length) ∧
      ∀ s', s.start = .reset → step false s .start = some s' →
        ∀ u, Reach (step false) s' u → u.queueLock = none →
          (u.curQueueSize = u.queueB.length ↔ ResetsRight s .start) := by
  obtain ⟨s, hs, hp⟩ := exists_reachIf (step false) ResetsRight Pool.init
    [.start, .add 0 7, .client 0 none, .client 0 none, .start, .client 0 none, .client 0 none,
      .client 0 none, .client 0 none, .start, .start, .start]
    (fun s : Pool 1 (Fin 1) Nat => decide (s.start = .returned ∧ s.queueB = [7] ∧
      s.curQueueSize = 1)) (by decide)
  exact ⟨s, of_decide_eq_true hp, counter_tells_truth hs⟩

/-- A task submitted before `start` is queued and not counted. -/
theorem uncounted_of_early_add :
    ¬ ∀ s : Pool 1 (Fin 1) Nat, Reach (step false) Pool.init s → s.queueLock = none →
      s.start = .returned → s.curQueueSize = s.queueB.length := by
  intro all
  obtain ⟨s, hs, hp⟩ := exists_reach (step false) Pool.init
    [.add 0 7, .client 0 none, .client 0 none, .client 0 none, .client 0 none, .client 0 none,
      .start, .start, .start, .start, .start]
    (fun s : Pool 1 (Fin 1) Nat => decide ((s.queueLock = none ∧ s.start = .returned) ∧
      s.curQueueSize = 0 ∧ s.queueB = [7])) (by decide)
  obtain ⟨⟨free, returned⟩, size, queue⟩ := of_decide_eq_true hp
  have equal := all s hs free returned
  rw [size, queue] at equal
  exact absurd equal (by decide)

end Leano.PthreadPool
