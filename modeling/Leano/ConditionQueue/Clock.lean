import Leano.ConditionQueue.Timeouts

universe u v

namespace Leano.ConditionQueue

open Leano.Lib

structure Timespec where
  tvSec : Int
  tvNsec : Int

def second : Nat := 1000000000

def Timespec.ns (t : Timespec) : Int := t.tvSec * second + t.tvNsec

def ntimeout (timeout : Nat) : Timespec := ⟨(Int64.ofNat timeout).toInt, 0⟩

structure TimedCall where
  made : Nat
  timeout : Nat

structure Clocked (ι : Type v) (P : Type u) where
  state : State ι P
  clock : Nat
  calls : ι → TimedCall

inductive Event (ι : Type v) (P : Type u) where
  | act (a : Act ι P)
  | tick (ns : Nat)

namespace Clocked

variable {ι : Type v} {P : Type u}

def start (clock : Nat) : Clocked ι P := ⟨State.init, clock, fun _ => ⟨0, 0⟩⟩

def deadline? (v : Clocked ι P) : Act ι P → Option Int
  | .timeout t => some (ntimeout (v.calls t).timeout).ns
  | _ => none

def Due (v : Clocked ι P) (a : Act ι P) : Prop := ∀ time ∈ v.deadline? a, time ≤ v.clock

instance (v : Clocked ι P) (a : Act ι P) : Decidable (v.Due a) :=
  inferInstanceAs (Decidable (∀ time ∈ v.deadline? a, time ≤ (v.clock : Int)))

def see [DecidableEq ι] (v : Clocked ι P) : Act ι P → ι → TimedCall
  | .call t (.waitTimeoutPop timeout) => Function.update v.calls t ⟨v.clock, timeout⟩
  | _ => v.calls

end Clocked

variable {ι : Type v} {P : Type u} [Fintype ι] [DecidableEq ι]

def clockStep (v : Clocked ι P) : Event ι P → Option (Clocked ι P)
  | .act a =>
    if v.Due a then (step v.state a).map fun s => { v with state := s, calls := v.see a } else none
  | .tick ns => some { v with clock := v.clock + ns }

/-- A call of `wait_timeout_pop` that comes back next, and without an element, has waited its
time. -/
def Punctual (v : Clocked ι P) : Prop :=
  ∀ t w op s', (v.state.threads t).section? = some op → op.isTimed = true →
    step v.state (.run t w) = some s' → s'.threads t = .returned (.pop none false) →
    (v.calls t).made + (v.calls t).timeout * second ≤ v.clock

def Calls (allowed : Nat → Nat → Prop) (v : Clocked ι P) (e : Event ι P) : Prop :=
  ∀ t timeout, e = .act (.call t (.waitTimeoutPop timeout)) → allowed v.clock timeout

def AtEpoch (clock timeout : Nat) : Prop := timeout = 0 ∨ clock = 0 ∧ timeout < 2 ^ 63

variable {v v' : Clocked ι P} {e : Event ι P}

theorem punctual_iff_expired : Punctual v ↔ ∀ t, v.state.Expired t →
    (v.calls t).made + (v.calls t).timeout * second ≤ v.clock := by
  constructor
  · intro punctual t expired
    refine punctual t none .timedOut _ expired rfl (step_timedOut expired) ?_
    rw [threads_setThread, if_pos rfl]
  · intro waited t w op s' hop timed hs nothing
    exact waited t (expired_of_nothing hop timed hs nothing)

theorem ntimeout_of_lt {timeout : Nat} (h : timeout < 2 ^ 63) :
    (ntimeout timeout).ns = timeout * second := by
  rw [Timespec.ns, ntimeout, Int64.toInt_ofNat_of_lt h]
  exact add_zero _

theorem ntimeout_lt {clock timeout : Nat} (h : ¬ AtEpoch clock timeout) :
    (ntimeout timeout).ns < clock + timeout * second := by
  obtain ⟨pos, late⟩ := not_or.mp h
  by_cases fits : timeout < 2 ^ 63
  · have behind : clock ≠ 0 := fun zero => late ⟨zero, fits⟩
    rw [ntimeout_of_lt fits]
    omega
  · have bound := Int64.toInt_lt (Int64.ofNat timeout)
    simp only [ntimeout, Timespec.ns, second]
    omega

structure Kept (v : Clocked ι P) : Prop where
  waits : ∀ t, Waits (v.state.threads t)
  past : ∀ t, (v.calls t).made ≤ v.clock
  epoch : ∀ t, AtEpoch (v.calls t).made (v.calls t).timeout
  waited : ∀ t, v.state.Expired t → (v.calls t).made + (v.calls t).timeout * second ≤ v.clock

theorem kept_start (clock : Nat) : Kept (Clocked.start clock : Clocked ι P) where
  waits := waits_of_reach .start
  past _ := Nat.zero_le _
  epoch _ := .inl rfl
  waited _ expired := by cases expired

omit [Fintype ι] [DecidableEq ι] in
theorem Kept.due {t : ι} (h : Kept v) (due : v.Due (.timeout t)) :
    (v.calls t).made + (v.calls t).timeout * second ≤ v.clock := by
  have time := due _ rfl
  have past := h.past t
  rcases h.epoch t with zero | ⟨zero, fits⟩
  · rw [zero]
    omega
  · rw [ntimeout_of_lt fits] at time
    omega

omit [Fintype ι] in
theorem see_cases (v : Clocked ι P) (a : Act ι P) (u : ι) :
    v.see a u = v.calls u ∨
      ∃ timeout, a = .call u (.waitTimeoutPop timeout) ∧ v.see a u = ⟨v.clock, timeout⟩ := by
  unfold Clocked.see
  split
  case h_1 t timeout =>
    by_cases same : u = t
    · subst same
      exact .inr ⟨timeout, rfl, Function.update_self ..⟩
    · exact .inl (Function.update_of_ne same _ _)
  case h_2 => exact .inl rfl

theorem not_expired_call {s s' : State ι P} {t : ι} {op : Op P}
    (hs : step s (.call t op) = some s') : ¬ s'.Expired t := by
  cases step_cases hs with
  | call _ hop =>
    intro expired
    unfold State.Expired at expired
    rw [threads_setThread, if_pos rfl] at expired
    cases expired
    cases hop

theorem Kept.step (h : Kept v) (ok : Calls AtEpoch v e) (hs : clockStep v e = some v') :
    Kept v' := by
  cases e with
  | tick ns =>
    cases hs
    refine ⟨h.waits, fun t => (h.past t).trans (Nat.le_add_right ..), h.epoch, fun t expired => ?_⟩
    exact (h.waited t expired).trans (Nat.le_add_right ..)
  | act a =>
    simp only [clockStep] at hs
    split at hs
    case isFalse => cases hs
    case isTrue due =>
      obtain ⟨s, step, rfl⟩ := Option.map_eq_some_iff.mp hs
      refine ⟨waits_of_step h.waits step, fun t => ?_, fun t => ?_, fun t expired => ?_⟩
      · rcases see_cases v a t with same | ⟨timeout, -, new⟩
        · exact (congrArg TimedCall.made same).trans_le (h.past t)
        · exact (congrArg TimedCall.made new).le
      · rcases see_cases v a t with same | ⟨timeout, call, new⟩
        · change AtEpoch (v.see a t).made (v.see a t).timeout
          exact same ▸ h.epoch t
        · change AtEpoch (v.see a t).made (v.see a t).timeout
          rw [new]
          exact ok t timeout (by rw [call])
      · change (v.see a t).made + (v.see a t).timeout * second ≤ v.clock
        rcases see_cases v a t with same | ⟨timeout, rfl, -⟩
        · rw [same]
          rcases expired_of_step h.waits step expired with before | rfl
          · exact h.waited t before
          · exact h.due due
        · exact absurd expired (not_expired_call step)

section alone

variable {t : ι} {call : TimedCall} {ph : Phase (Op P) (Res P)} {now : Nat}

def alone (t : ι) (call : TimedCall) (ph : Phase (Op P) (Res P)) (now : Nat) : Clocked ι P :=
  ⟨State.init.setThread t ph, now, Function.update (fun _ => ⟨0, 0⟩) t call⟩

omit [Fintype ι] in
theorem alone_threads : (alone t call ph now).state.threads t = ph :=
  threads_setThread.trans (if_pos rfl)

omit [Fintype ι] in
theorem alone_calls : (alone t call ph now : Clocked ι P).calls t = call := by
  simp only [alone, Function.update_self]

omit [Fintype ι] in
theorem alone_setThread (ph' : Phase (Op P) (Res P)) :
    (alone t call ph now).state.setThread t ph' = State.init.setThread t ph' := by
  simp only [alone, State.setThread, Function.update_idem]

theorem alone_waits {timeout : Nat} :
    clockStep (alone t call (.ready (.waitTimeoutPop timeout)) now : Clocked ι P)
      (.act (.run t none)) = some (alone t call (.blocked (.waitTimeoutPop timeout)) now) := by
  have due : (alone t call (.ready (.waitTimeoutPop timeout)) now : Clocked ι P).Due
      (.run t none) := by rintro time ⟨⟩
  have section? : ((alone t call (.ready (.waitTimeoutPop timeout)) now : Clocked ι P).state.threads
      t).section? = some (.waitTimeoutPop timeout) := congrArg Phase.section? alone_threads
  rw [clockStep, if_pos due, Option.map_eq_some_iff]
  refine ⟨_, Option.bind_eq_some_iff.mpr ⟨_, section?, rfl⟩, ?_⟩
  exact congrArg (Clocked.mk · now _) (alone_setThread _)

theorem alone_expires {timeout : Nat} (due : (ntimeout call.timeout).ns ≤ now) :
    clockStep (alone t call (.blocked (.waitTimeoutPop timeout)) now : Clocked ι P)
      (.act (.timeout t)) = some (alone t call (.woken .timedOut) now) := by
  have due : (alone t call (.blocked (.waitTimeoutPop timeout)) now : Clocked ι P).Due
      (.timeout t) := by
    rintro time ⟨⟩
    rw [alone_calls]
    exact due
  rw [clockStep, if_pos due, Option.map_eq_some_iff]
  refine ⟨_, by rw [step, alone_threads], ?_⟩
  exact congrArg (Clocked.mk · now _) (alone_setThread _)

theorem reach_alone {allowed : Nat → Nat → Prop} (t : ι) (call : TimedCall)
    (may : allowed call.made call.timeout) :
    ReachIf clockStep (Calls allowed) (Clocked.start call.made : Clocked ι P)
      (alone t call (.woken .timedOut) (max call.made (ntimeout call.timeout).ns.toNat)) := by
  have called : clockStep (Clocked.start call.made : Clocked ι P)
      (.act (.call t (.waitTimeoutPop call.timeout))) =
      some (alone t call (.ready (.waitTimeoutPop call.timeout)) call.made) := rfl
  have passes : clockStep
      (alone t call (.blocked (.waitTimeoutPop call.timeout)) call.made : Clocked ι P)
      (.tick ((ntimeout call.timeout).ns.toNat - call.made)) =
      some (alone t call (.blocked (.waitTimeoutPop call.timeout))
        (max call.made (ntimeout call.timeout).ns.toNat)) := by
    refine congrArg (fun now => some (alone t call _ now)) ?_
    change call.made + _ = _
    omega
  have first : Calls allowed (Clocked.start call.made : Clocked ι P)
      (.act (.call t (.waitTimeoutPop call.timeout))) := by
    rintro u time ⟨⟩
    exact may
  have waiting := (ReachIf.start.next first called).next (by simp [Calls]) alone_waits
  refine (waiting.next (by simp [Calls]) passes).next (by simp [Calls]) (alone_expires ?_)
  omega

end alone

/-- Whatever calls are allowed, each waits its time in every run exactly if they are all made at the
epoch. -/
theorem punctual_iff (t : ι) (allowed : Nat → Nat → Prop) :
    (∀ clock v, ReachIf clockStep (Calls allowed) (Clocked.start clock : Clocked ι P) v →
      Punctual v) ↔
    ∀ clock timeout, allowed clock timeout → AtEpoch clock timeout := by
  constructor
  · intro punctual clock timeout call
    by_contra late
    have run := punctual clock _ (reach_alone t ⟨clock, timeout⟩ call)
    have waited := punctual_iff_expired.mp run t (congrArg Phase.section? alone_threads)
    rw [alone_calls] at waited
    have time := ntimeout_lt late
    have pos : timeout ≠ 0 := (not_or.mp late).1
    change clock + timeout * second ≤ max clock (ntimeout timeout).ns.toNat at waited
    simp only [second] at waited time
    omega
  · intro sound clock v h
    have kept : Kept v := by
      refine h.invariant (kept_start clock) fun v e v' _ hI ok hs => hI.step ?_ hs
      exact fun t timeout call => sound _ _ (ok t timeout call)
    exact punctual_iff_expired.mpr kept.waited

/-- Five seconds, asked for in 2023, are over at once. -/
theorem not_punctual : ¬ ∀ clock (v : Clocked (Fin 1) Nat),
    Reach clockStep (Clocked.start clock) v → Punctual v := by
  intro all
  obtain ⟨v, hv, hp⟩ := exists_reach clockStep (Clocked.start (1700000000 * second))
    [.act (.call 0 (.waitTimeoutPop 5)), .act (.run 0 none), .act (.timeout 0)]
    (fun v : Clocked (Fin 1) Nat => decide (v.state.threads 0 = .woken .timedOut ∧
      (v.calls 0).made = v.clock ∧ (v.calls 0).timeout = 5))
    (by decide +kernel)
  obtain ⟨expired, made, timeout⟩ := of_decide_eq_true hp
  have waited := punctual_iff_expired.mp (all _ v hv) 0 (congrArg Phase.section? expired)
  rw [made, timeout] at waited
  simp only [second] at waited
  omega

end Leano.ConditionQueue
