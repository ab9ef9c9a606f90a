import Leano.ThreadPool.Signals
import Leano.Lib.Watch

universe u v

namespace Leano.ThreadPool

open Leano.Lib

variable {n : Nat} {C : Type v} {T : Type u}

/-- `paused`: a `Pause` has returned and no `Continues` has begun since. `held`: the workers that
have come to their pause check in this time. -/
structure Holding (n : Nat) where
  paused : Bool
  held : Fin n → Bool

def Holding.hold (h : Holding n) (w : Fin n) : Holding n :=
  if h.paused then { h with held := Function.update h.held w true } else h

def seeHolding (h : Holding n) (s : Pool n C T) : Act n C T → Holding n
  | .continues _ => ⟨false, fun _ => false⟩
  | .client c =>
    match s.client c with
    | .pause [] => { h with paused := true }
    | _ => h
  | .work w _ =>
    match s.worker w with
    | .check => h.hold w
    | _ => h
  | _ => h

abbrev Held (n : Nat) (C : Type v) (T : Type u) := Watched (Pool n C T) (Holding n)

def ChecksClean (v : Held n C T) (w : Fin n) : Prop :=
  v.state.worker w = .check → v.seen.paused = true → v.state.sigusr1 w = false

/-- No `Continues` signals a worker that is held back, or clears a flag that a `Pause` has set which
is under way or has returned since the `Continues` began. -/
def ClearsAhead (v : Held n C T) (c : C) : Prop :=
  (∀ w, (v.state.client c).kills = some w → v.seen.held w = false) ∧
  ∀ w, (v.state.client c).writes = some (w, false) →
    v.seen.paused = false ∧ v.state.ToWrite true w

def Apart (v : Held n C T) (a : Act n C T) : Prop :=
  a.OfWorker (ChecksClean v) ∧ a.OfClient (ClearsAhead v)

section

variable [Fintype C] [DecidableEq T]

instance (v : Held n C T) : DecidablePred (ChecksClean v) := fun _ =>
  inferInstanceAs (Decidable (_ → _ → _))

instance (v : Held n C T) : DecidablePred (ClearsAhead v) := fun c =>
  inferInstanceAs (Decidable ((∀ w, (v.state.client c).kills = some w → _) ∧
    ∀ w, (v.state.client c).writes = some (w, false) → _ ∧ _))

instance (v : Held n C T) (a : Act n C T) : Decidable (Apart v a) :=
  inferInstanceAs (Decidable (_ ∧ _))

end

@[simp] theorem hold_paused (h : Holding n) (w : Fin n) : (h.hold w).paused = h.paused := by
  unfold Holding.hold
  split <;> rfl

theorem held_of_hold {h : Holding n} {w u : Fin n} (held : (h.hold u).held w = true) :
    h.held w = true ∨ (w = u ∧ h.paused = true) := by
  unfold Holding.hold at held
  split at held
  case isTrue paused =>
    by_cases same : w = u
    · exact .inr ⟨same, paused⟩
    · exact .inl ((Function.update_of_ne same _ _).symm.trans held)
  case isFalse => exact .inl held

theorem held_of_see {h : Holding n} {s : Pool n C T} {a : Act n C T} {w : Fin n}
    (held : (seeHolding h s a).held w = true) :
    h.held w = true ∨ (h.paused = true ∧ s.worker w = .check ∧ ∃ ret, a = .work w ret) := by
  cases a with
  | continues => cases held
  | client c =>
    simp only [seeHolding] at held
    split at held <;> exact .inl held
  | work u ret =>
    simp only [seeHolding] at held
    split at held
    case h_1 hu =>
      rcases held_of_hold held with was | ⟨rfl, paused⟩
      · exact .inl was
      · exact .inr ⟨paused, hu, ret, rfl⟩
    case h_2 => exact .inl held
  | _ => exact .inl held

theorem paused_of_see {h : Holding n} {s : Pool n C T} {a : Act n C T} {w : Fin n}
    (held : (seeHolding h s a).held w = true) (paused : h.paused = true) :
    (seeHolding h s a).paused = true := by
  cases a with
  | continues => cases held
  | client c =>
    simp only [seeHolding]
    split
    case h_1 => rfl
    case h_2 => exact paused
  | work u ret =>
    simp only [seeHolding]
    split
    case h_1 => rw [hold_paused, paused]
    case h_2 => exact paused
  | _ => exact paused

theorem seeHolding_paused {s : Pool n C T} {a : Act n C T} {h : Holding n}
    (paused : h.paused = false)
    (going : ∀ c, a = .client c → (s.client c).toWrite true ≠ some []) :
    (seeHolding h s a).paused = false := by
  cases a with
  | client c =>
    simp only [seeHolding]
    split
    case h_1 hc => exact absurd (by rw [hc]; rfl) (going c rfl)
    case h_2 => exact paused
  | continues => rfl
  | work w ret =>
    simp only [seeHolding]
    split
    case h_1 => rw [hold_paused, paused]
    case h_2 => exact paused
  | _ => exact paused

structure Holds (v : Held n C T) : Prop where
  ahead : Ahead v.state true v.seen.paused
  paused : ∀ w, v.seen.held w = true → v.seen.paused = true
  before : ∀ w, v.seen.held w = true → (v.state.worker w).before = true
  silent : ∀ w, v.seen.held w = true → v.state.worker w = .sigwait → v.state.sigusr1 w = false

variable [DecidableEq C] {v : Held n C T} {s' : Pool n C T} {a : Act n C T} {w : Fin n}

namespace Holds

theorem before_step (h : Holds v) (hs : Signals v.state a s')
    (held : (seeHolding v.seen v.state a).held w = true) : (s'.worker w).before = true := by
  have before : (v.state.worker w).before = true := by
    rcases held_of_see held with was | ⟨-, check, -⟩
    · exact h.before w was
    · rw [check]
      rfl
  have paused : v.seen.paused = true := by
    rcases held_of_see held with was | ⟨paused, -⟩
    · exact h.paused w was
    · exact paused
  cases hs with
  | @check u =>
    by_cases same : w = u
    · subst same
      simp only [Pool.setWorker, Function.update_self]
      rfl
    · simpa only [Pool.setWorker, Function.update_of_ne same] using before
  | @enterTake u _ _ hu flag =>
    by_cases same : w = u
    · subst same
      rcases h.ahead w flag with gone | ⟨open', -⟩
      · cases gone.symm.trans hu
      · cases paused.symm.trans open'
    · simpa only [Pool.setWorker, Function.update_of_ne same] using before
  | @signalled u _ hu pending =>
    by_cases same : w = u
    · subst same
      rcases held_of_see held with was | ⟨-, check, -⟩
      · cases pending.symm.trans (h.silent w was hu)
      · cases hu.symm.trans check
    · simpa only [Pool.setWorker, Function.update_of_ne same] using before
  | other _ _ _ _ kept => exact kept w before
  | _ => exact before

theorem silent_step (h : Holds v) (ok : Apart v a) (hs : Signals v.state a s')
    (held : (seeHolding v.seen v.state a).held w = true) (sleeps : s'.worker w = .sigwait) :
    s'.sigusr1 w = false := by
  by_contra pending
  rw [Bool.not_eq_false] at pending
  have was := held_of_see held
  rcases pending_of_step hs pending with pending | ⟨c, rfl, kills⟩
  · rcases sleeps_of_step hs sleeps with sleeps | ⟨check, ret, rfl⟩
    · rcases was with was | ⟨-, check, -⟩
      · cases pending.symm.trans (h.silent w was sleeps)
      · cases sleeps.symm.trans check
    · have paused : v.seen.paused = true := was.elim (h.paused w) And.left
      cases pending.symm.trans (ok.1 check paused)
  · rcases was with was | ⟨-, -, ret, act⟩
    · cases was.symm.trans (ok.2.1 w kills)
    · cases act

theorem step (h : Holds v)
    (group : ∀ w, v.state.worker w = .exited ∨ w ∈ v.state.threadgroup)
    (ok : Apart v a) (hs : Signals v.state a s')
    (exits : ∀ w, v.state.worker w = .exited → s'.worker w = .exited) :
    Holds ⟨s', seeHolding v.seen v.state a⟩ where
  ahead := by
    refine h.ahead.step group exits hs ?_ seeHolding_paused
    rintro c w rfl next
    exact ok.2.2 w next
  paused := by
    intro w held
    refine paused_of_see held ?_
    exact (held_of_see held).elim (h.paused w) And.left
  before := fun _ held => h.before_step hs held
  silent := fun _ held sleeps => h.silent_step ok hs held sleeps

end Holds

variable [Fintype C]

def stepHeld : Held n C T → Act n C T → Option (Held n C T) := watch step seeHolding

def initHeld : Held n C T := ⟨.init, ⟨false, fun _ => false⟩⟩

theorem reach_holds (h : ReachIf stepHeld Apart initHeld v) : Holds v := by
  refine h.invariant (I := Holds) ⟨?_, nofun, nofun, nofun⟩ ?_
  · exact fun _ _ => .inr ⟨rfl, by rintro c _ ⟨⟩⟩
  · intro v a v' hr ih ok hs
    obtain ⟨s', moved, rfl⟩ := eq_of_watch hs
    have hs := step_cases moved
    have group := mem_threadgroup (reach_stopping hr.unwatch)
    have exits : ∀ w, v.state.worker w = .exited → s'.worker w = .exited :=
      fun w => (view_of_step hs w).exited
    exact ih.step group ok (signals_of_step hs) exits

/-- A worker that comes to its pause check after a `Pause` has returned does not call `_pfun` before
a `Continues` begins. -/
theorem pause_holds (h : ReachIf stepHeld Apart initHeld v) (held : v.seen.held w = true) :
    ∀ a v', stepHeld v a = some v' → logOf v'.state.calls w = logOf v.state.calls w := by
  intro a v' hs
  obtain ⟨s', moved, rfl⟩ := eq_of_watch hs
  exact (view_of_step (step_cases moved) w).calls ((reach_holds h).before w held)

theorem pause_holds_of_one : ∃ v : Held 1 (Fin 1) Nat,
    (v.seen.held 0 = true ∧ v.state.calls = [(0, some 7)]) ∧
    ∀ a v', stepHeld v a = some v' → logOf v'.state.calls 0 = logOf v.state.calls 0 := by
  obtain ⟨v, hv, hp⟩ := exists_reachIf stepHeld Apart initHeld
    [.addData 0 7, .queue (.run (.inr 0) none), .client 0, .work 0 .zero, .work 0 .zero,
      .queue (.run (.inl 0) none), .work 0 .zero, .work 0 .zero, .pause 0, .client 0, .client 0,
      .work 0 .zero, .work 0 .zero, .work 0 .zero]
    (fun v : Held 1 (Fin 1) Nat => decide (v.seen.held 0 = true ∧
      v.state.calls = [(0, some 7)])) (by decide)
  have final := of_decide_eq_true hp
  exact ⟨v, final, pause_holds hv final.1⟩

/-- A signal left over from a `Continues` before the `Pause` lets the worker through. -/
theorem let_through_by_old_signal :
    ¬ ∀ v : Held 1 (Fin 1) Nat, Reach stepHeld initHeld v → ∀ w, v.seen.held w = true →
      ∀ a v', stepHeld v a = some v' → logOf v'.state.calls w = logOf v.state.calls w := by
  intro all
  obtain ⟨v, hv, hp⟩ := exists_reach stepHeld initHeld
    [.addData 0 7, .queue (.run (.inr 0) none), .client 0, .pause 0, .client 0, .client 0,
      .continues 0, .client 0, .client 0, .client 0, .pause 0, .client 0, .client 0,
      .work 0 .zero, .work 0 .zero, .work 0 .zero, .queue (.run (.inl 0) none), .work 0 .zero,
      .work 0 .zero]
    (fun v : Held 1 (Fin 1) Nat => decide (v.seen.held 0 = true ∧
      v.state.worker 0 = .process (some 7) ∧ v.state.calls = [])) (by decide)
  obtain ⟨held, hw, calls⟩ := of_decide_eq_true hp
  have hs : stepHeld v (.work 0 .zero) = some
      ⟨{ v.state with calls := v.state.calls ++ [(0, some 7)] }.setWorker 0 .loop,
        seeHolding v.seen v.state (.work 0 .zero)⟩ := by
    simp only [stepHeld, watch, step, Pool.runInThread, hw, Option.map_some]
  have same := all v hv 0 held _ _ hs
  simp only [Pool.setWorker, calls] at same
  exact absurd same (by decide)

end Leano.ThreadPool
