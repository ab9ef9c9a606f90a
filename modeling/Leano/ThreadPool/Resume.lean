import Leano.ThreadPool.Signals
import Leano.Lib.Watch

universe u v

namespace Leano.ThreadPool

open Leano.Lib

variable {n : Nat} {C : Type v} {T : Type u}

def ClientPc.toKill : ClientPc n → Option (List (Fin n))
  | .kill rest => some rest
  | .clear _ rest => some rest
  | _ => none

def Pool.ToKill (s : Pool n C T) (w : Fin n) : Prop := ∀ c, ∀ rest ∈ (s.client c).toKill, w ∈ rest

def seeResumed (resumed : Bool) (s : Pool n C T) : Act n C T → Bool
  | .pause _ => false
  | .client c =>
    match s.client c with
    | .kill [] => true
    | _ => resumed
  | _ => resumed

abbrev Resumed (n : Nat) (C : Type v) (T : Type u) := Watched (Pool n C T) Bool

/-- No `Pause` sets a flag that a `Continues` under way has passed, or after one has returned. -/
def SetsAhead (v : Resumed n C T) (c : C) : Prop :=
  ∀ w, (v.state.client c).writes = some (w, true) → v.seen = false ∧ v.state.ToWrite false w

/-- The worker does not park between its signal and the clearing of its flag. -/
def ParksApart (v : Resumed n C T) (w : Fin n) : Prop :=
  v.state.worker w = .check → v.state.waitsig w = true → v.state.sigusr1 w = false →
    ∀ c, (v.state.client c).writes ≠ some (w, false)

def Orderly (v : Resumed n C T) (a : Act n C T) : Prop :=
  a.OfClient (SetsAhead v) ∧ a.OfWorker (ParksApart v)

section

variable [Fintype C] [DecidableEq T]

instance (v : Resumed n C T) : DecidablePred (SetsAhead v) := fun c =>
  inferInstanceAs (Decidable (∀ w, (v.state.client c).writes = some (w, true) → _ ∧ _))

instance (v : Resumed n C T) : DecidablePred (ParksApart v) := fun w =>
  inferInstanceAs (Decidable (_ → _ → _ → ∀ c, (v.state.client c).writes ≠ some (w, false)))

instance (v : Resumed n C T) (a : Act n C T) : Decidable (Orderly v a) :=
  inferInstanceAs (Decidable (_ ∧ _))

end

theorem toKill_of_toWrite {s : Pool n C T} {w : Fin n} (h : s.ToWrite false w)
    (apart : ∀ c, (s.client c).writes ≠ some (w, false)) : s.ToKill w := by
  intro c rest hr
  cases hc : s.client c with
  | kill rest' =>
    rw [hc] at hr
    exact h c rest (by rw [hc]; exact hr)
  | clear u rest' =>
    rw [hc] at hr
    cases hr
    have there := h c (u :: rest) (by rw [hc]; rfl)
    have other : w ≠ u := by
      rintro rfl
      exact apart c (by rw [hc]; rfl)
    exact (List.mem_cons.mp there).resolve_left other
  | _ => rw [hc] at hr; cases hr

theorem toKill_of_round {pc pc' : ClientPc n} (h : pc.round = pc'.round) :
    pc.toKill = pc'.toKill := by
  have of_round : ∀ pc : ClientPc n, pc.toKill = pc.round.bind ClientPc.toKill := by
    intro pc
    cases pc <;> rfl
  rw [of_round, h, ← of_round]

structure Resumable (v : Resumed n C T) : Prop where
  ahead : Ahead v.state false v.seen
  parked : ∀ w, v.state.isParked w = true → v.seen = false ∧ v.state.ToKill w

theorem seeResumed_eq_false {s : Pool n C T} {a : Act n C T} {resumed : Bool}
    (h : resumed = false) (going : ∀ c, a = .client c → (s.client c).toWrite false ≠ some []) :
    seeResumed resumed s a = false := by
  cases a with
  | client c =>
    simp only [seeResumed]
    split
    case h_1 hc => exact absurd (by rw [hc]; rfl) (going c rfl)
    case h_2 => exact h
  | pause => rfl
  | _ => exact h

theorem not_resumed {v : Resumed n C T} {a : Act n C T} {w : Fin n} (ahead : v.state.ToKill w)
    (seen : v.seen = false) : seeResumed v.seen v.state a = false := by
  refine seeResumed_eq_false seen ?_
  rintro c rfl last
  cases hc : v.state.client c with
  | kill rest =>
    rw [hc] at last
    cases last
    exact absurd (ahead c [] (by rw [hc]; rfl)) List.not_mem_nil
  | _ => rw [hc] at last; cases last

variable [DecidableEq C] {s s' : Pool n C T} {c : C} {w : Fin n}

theorem Pool.ToKill.setClient (h : s.ToKill w) {pc : ClientPc n}
    (new : ∀ rest ∈ pc.toKill, w ∈ rest) (client : s'.client = Function.update s.client c pc) :
    s'.ToKill w := by
  rw [Pool.ToKill, client]
  exact forall_update (Q := fun pc : ClientPc n => ∀ rest ∈ pc.toKill, w ∈ rest) h new

namespace Resumable

variable {v : Resumed n C T} {a : Act n C T}

theorem parked_step (h : Resumable v)
    (group : ∀ w, v.state.worker w = .exited ∨ w ∈ v.state.threadgroup)
    (ok : a.OfWorker (ParksApart v)) (hs : Signals v.state a s') (w : Fin n)
    (hw : s'.isParked w = true) : seeResumed v.seen v.state a = false ∧ s'.ToKill w := by
  obtain ⟨seen, ahead⟩ : v.seen = false ∧ v.state.ToKill w := by
    rcases parked_of_step hs hw with was | ⟨check, flag, pending, ret, rfl⟩
    · exact h.parked w was
    · rcases h.ahead w flag with gone | ⟨seen, ahead⟩
      · cases gone.symm.trans check
      · exact ⟨seen, toKill_of_toWrite ahead (ok check flag pending)⟩
  refine ⟨not_resumed ahead seen, ?_⟩
  cases hs with
  | pause => exact ahead.setClient (by rintro _ ⟨⟩) rfl
  | pauseNext => exact ahead.setClient (by rintro _ ⟨⟩) rfl
  | pauseDone => exact ahead.setClient (by rintro _ ⟨⟩) rfl
  | continues =>
    refine ahead.setClient ?_ rfl
    rintro _ ⟨⟩
    rcases group w with gone | there
    · cases gone.symm.trans (isParked_iff.mp hw).1
    · exact there
  | @killNext c u rest hc =>
    refine ahead.setClient ?_ rfl
    rintro _ ⟨⟩
    have other : w ≠ u := by
      rintro rfl
      cases (Function.update_self ..).symm.trans (isParked_iff.mp hw).2
    have there := ahead c (u :: rest) (by rw [hc]; rfl)
    exact (List.mem_cons.mp there).resolve_left other
  | @clear c u rest hc =>
    refine ahead.setClient ?_ rfl
    rintro _ ⟨⟩
    exact ahead c rest (by rw [hc]; rfl)
  | killDone => exact ahead.setClient (by rintro _ ⟨⟩) rfl
  | other _ _ _ rounds =>
    intro c
    rw [toKill_of_round (rounds c)]
    exact ahead c
  | _ => exact ahead

theorem step (h : Resumable v)
    (group : ∀ w, v.state.worker w = .exited ∨ w ∈ v.state.threadgroup)
    (ok : Orderly v a) (hs : Signals v.state a s')
    (exits : ∀ w, v.state.worker w = .exited → s'.worker w = .exited) :
    Resumable ⟨s', seeResumed v.seen v.state a⟩ where
  ahead := by
    refine h.ahead.step group exits hs ?_ seeResumed_eq_false
    rintro c w rfl next
    exact ok.1 w next
  parked := h.parked_step group ok.2 hs

end Resumable

variable [Fintype C] {v : Resumed n C T}

def stepResumed : Resumed n C T → Act n C T → Option (Resumed n C T) := watch step seeResumed

def initResumed : Resumed n C T := ⟨.init, false⟩

theorem reach_resumable (h : ReachIf stepResumed Orderly initResumed v) : Resumable v := by
  refine h.invariant (I := Resumable) ?_ ?_
  · refine ⟨nofun, ?_⟩
    intro w hw
    cases (isParked_iff.mp hw).1
  · intro v a v' hr ih ok hs
    obtain ⟨s', moved, rfl⟩ := eq_of_watch hs
    have hs := step_cases moved
    have group := mem_threadgroup (reach_stopping hr.unwatch)
    have exits : ∀ w, v.state.worker w = .exited → s'.worker w = .exited :=
      fun w => (view_of_step hs w).exited
    exact ih.step group ok (signals_of_step hs) exits

/-- After `Continues` no worker is blocked in `sigwait` without a signal to come, unless a `Pause`
has begun since. -/
theorem continues_resumes (h : ReachIf stepResumed Orderly initResumed v)
    (resumed : v.seen = true) (w : Fin n) (sleeps : v.state.worker w = .sigwait) :
    v.state.sigusr1 w = true := by
  by_contra pending
  have parked := isParked_iff.mpr ⟨sleeps, Bool.eq_false_iff.mpr pending⟩
  cases resumed.symm.trans ((reach_resumable h).parked w parked).1

theorem continues_resumes_of_one : ∃ v : Resumed 1 (Fin 1) Nat,
    (v.seen = true ∧ v.state.worker 0 = .sigwait) ∧ v.state.sigusr1 0 = true := by
  obtain ⟨v, hv, hp⟩ := exists_reachIf stepResumed Orderly initResumed
    [.pause 0, .client 0, .client 0, .work 0 .zero, .work 0 .zero, .continues 0, .client 0,
      .client 0, .client 0]
    (fun v : Resumed 1 (Fin 1) Nat => decide (v.seen = true ∧ v.state.worker 0 = .sigwait))
    (by decide)
  have final := of_decide_eq_true hp
  exact ⟨v, final, continues_resumes hv final.1 0 final.2⟩

/-- The worker gets the signal, serves a task and parks again before its flag is cleared. -/
theorem left_parked_by_continues :
    ¬ ∀ v : Resumed 1 (Fin 1) Nat, Reach stepResumed initResumed v → v.seen = true →
      ∀ w, v.state.worker w = .sigwait → v.state.sigusr1 w = true := by
  intro all
  obtain ⟨v, hv, hp⟩ := exists_reach stepResumed initResumed
    [.addData 0 7, .queue (.run (.inr 0) none), .client 0, .pause 0, .client 0, .client 0,
      .work 0 .zero, .work 0 .zero, .continues 0, .client 0, .work 0 .zero,
      .queue (.run (.inl 0) none), .work 0 .zero, .work 0 .zero, .work 0 .zero, .work 0 .zero,
      .work 0 .zero, .client 0, .client 0]
    (fun v : Resumed 1 (Fin 1) Nat => decide (v.seen = true ∧ v.state.worker 0 = .sigwait ∧
      v.state.sigusr1 0 = false)) (by decide)
  obtain ⟨resumed, sleeps, pending⟩ := of_decide_eq_true hp
  cases pending.symm.trans (all v hv resumed 0 sleeps)

end Leano.ThreadPool
