import Leano.Lib.Total

/-! Threads that call the operations of a monitor: one mutex and any number of condition
variables. A critical section runs from acquiring the mutex to releasing it, either by returning
or by waiting, so it is a single step; only the phase of each thread is left to track. -/

universe u v w x

namespace Leano.Lib

/-- `ready` is about to acquire the mutex, `blocked` waits on a condition variable, and `woken`
has been notified (or woke up by itself) and has not re-acquired the mutex yet. -/
inductive Phase (Op : Type u) (Res : Type v) where
  | idle
  | ready (op : Op)
  | blocked (op : Op)
  | woken (op : Op)
  | returned (res : Res)
  deriving DecidableEq

namespace Phase

variable {Op : Type u} {Res : Type v}

def section? : Phase Op Res → Option Op
  | .ready op => some op
  | .woken op => some op
  | _ => none

def isBlocked (on : Op → Bool) : Phase Op Res → Bool
  | .blocked op => on op
  | _ => false

def isWoken (on : Op → Bool) : Phase Op Res → Bool
  | .woken op => on op
  | _ => false

def isReady (on : Op → Bool) : Phase Op Res → Bool
  | .ready op => on op
  | _ => false

def wake (on : Op → Bool) : Phase Op Res → Phase Op Res
  | .blocked op => if on op then .woken op else .blocked op
  | ph => ph

def op? : Phase Op Res → Option Op
  | .ready op => some op
  | .blocked op => some op
  | .woken op => some op
  | _ => none

theorem op?_of_section {ph : Phase Op Res} {op : Op} (h : ph.section? = some op) :
    ph.op? = some op := by
  cases ph <;> simp_all [section?, op?]

theorem isBlocked_of_section {ph : Phase Op Res} {op : Op} (on : Op → Bool)
    (h : ph.section? = some op) : ph.isBlocked on = false := by
  cases ph <;> simp_all [section?, isBlocked]

theorem isWoken_of_section {ph : Phase Op Res} {op : Op} (on : Op → Bool)
    (h : ph.section? = some op) : (ph.isWoken on).toNat ≤ (on op).toNat := by
  cases ph <;> simp_all [section?, isWoken]

theorem isReady_of_section {ph : Phase Op Res} {op : Op} (on : Op → Bool)
    (h : ph.section? = some op) : (ph.isReady on).toNat ≤ (on op).toNat := by
  cases ph <;> simp_all [section?, isReady]

end Phase

variable {ι : Type w} {Op : Type u} {Res : Type v}

def notifyAll (on : Op → Bool) (th : ι → Phase Op Res) : ι → Phase Op Res :=
  fun t => (th t).wake on

/-- `notify_one`: the scheduler picks one blocked thread, and picks none only when there is none. -/
def notifyOne [Fintype ι] [DecidableEq ι] (on : Op → Bool) (th : ι → Phase Op Res) :
    Option ι → Option (ι → Phase Op Res)
  | some t =>
    match th t with
    | .blocked op => if on op then some (Function.update th t (.woken op)) else none
    | _ => none
  | none => if ∀ t, (th t).isBlocked on = false then some th else none

inductive Notified [DecidableEq ι] (on : Op → Bool) (th : ι → Phase Op Res) :
    (ι → Phase Op Res) → Prop
  | woke {t op} : th t = .blocked op → on op = true →
      Notified on th (Function.update th t (.woken op))
  | nobody : (∀ t, (th t).isBlocked on = false) → Notified on th th

theorem Notified.at [DecidableEq ι] {on : Op → Bool} {th th' : ι → Phase Op Res}
    (h : Notified on th th') (t : ι) :
    th' t = th t ∨ ∃ op, th t = .blocked op ∧ th' t = .woken op := by
  cases h with
  | @woke u op hu _ =>
    by_cases ht : t = u
    · subst ht
      exact .inr ⟨op, hu, Function.update_self _ _ _⟩
    · exact .inl (Function.update_of_ne ht _ _)
  | nobody => exact .inl rfl

theorem notifyAll_at (on : Op → Bool) (th : ι → Phase Op Res) (t : ι) :
    notifyAll on th t = th t ∨ ∃ op, th t = .blocked op ∧ notifyAll on th t = .woken op := by
  simp only [notifyAll]
  cases th t with
  | blocked op =>
    simp only [Phase.wake]
    split
    · exact .inr ⟨op, rfl, rfl⟩
    · exact .inl rfl
  | _ => exact .inl rfl

theorem Notified.forall {Q : Phase Op Res → Prop} [DecidableEq ι] {on : Op → Bool}
    {th th' : ι → Phase Op Res} (h : Notified on th th') (all : ∀ t, Q (th t))
    (wake : ∀ op, Q (.blocked op) → Q (.woken op)) : ∀ t, Q (th' t) := by
  intro t
  rcases h.at t with same | ⟨op, blocked, woken⟩
  · rw [same]
    exact all t
  · rw [woken]
    apply wake
    exact blocked ▸ all t

theorem forall_notifyAll {Q : Phase Op Res → Prop} (on : Op → Bool) {th : ι → Phase Op Res}
    (all : ∀ t, Q (th t)) (wake : ∀ op, Q (.blocked op) → Q (.woken op)) :
    ∀ t, Q (notifyAll on th t) := by
  intro t
  rcases notifyAll_at on th t with same | ⟨op, blocked, woken⟩
  · rw [same]
    exact all t
  · rw [woken]
    apply wake
    exact blocked ▸ all t

theorem Notified.apply_eq {β : Type x} [DecidableEq ι] {on : Op → Bool}
    {th th' : ι → Phase Op Res} (h : Notified on th th') {f : Phase Op Res → β}
    (hf : ∀ op, f (.woken op) = f (.blocked op)) (t : ι) : f (th' t) = f (th t) := by
  rcases h.at t with same | ⟨op, blocked, woken⟩
  · rw [same]
  · rw [woken, blocked, hf]

theorem apply_notifyAll {β : Type x} (on : Op → Bool) (th : ι → Phase Op Res)
    {f : Phase Op Res → β} (hf : ∀ op, f (.woken op) = f (.blocked op)) (t : ι) :
    f (notifyAll on th t) = f (th t) := by
  rcases notifyAll_at on th t with same | ⟨op, blocked, woken⟩
  · rw [same]
  · rw [woken, blocked, hf]

section

variable [Fintype ι] [DecidableEq ι] {on : Op → Bool} {th th' : ι → Phase Op Res}

theorem notified_of_notifyOne {w : Option ι} (h : notifyOne on th w = some th') :
    Notified on th th' := by
  cases w with
  | none =>
    simp only [notifyOne] at h
    split at h
    case isTrue hn => cases h; exact .nobody hn
    case isFalse => cases h
  | some t =>
    simp only [notifyOne] at h
    split at h
    case h_1 op ht =>
      split at h
      case isTrue hop => cases h; exact .woke ht hop
      case isFalse => cases h
    case h_2 => cases h

theorem exists_notifyOne (on : Op → Bool) (th : ι → Phase Op Res) :
    ∃ w th', notifyOne on th w = some th' := by
  by_cases nobody : ∀ t, (th t).isBlocked on = false
  · exact ⟨none, th, if_pos nobody⟩
  · push Not at nobody
    obtain ⟨t, ht⟩ := nobody
    refine ⟨some t, ?_⟩
    cases hp : th t with
    | blocked op =>
      have hop : on op = true := by simpa [hp, Phase.isBlocked] using ht
      exact ⟨_, by simp only [notifyOne, hp, hop, if_true]; rfl⟩
    | _ => simp [hp, Phase.isBlocked] at ht

theorem Notified.counts (h : Notified on th th') :
    (count (Phase.isBlocked on) th' + 1 = count (Phase.isBlocked on) th ∧
      count (Phase.isWoken on) th' = count (Phase.isWoken on) th + 1) ∨
    (th' = th ∧ count (Phase.isBlocked on) th = 0) := by
  cases h with
  | @woke t op ht hop =>
    have hb := count_update (Phase.isBlocked on) th t (.woken op)
    have hw := count_update (Phase.isWoken on) th t (.woken op)
    simp only [ht, Phase.isBlocked, Phase.isWoken, hop, Bool.toNat_true, Bool.toNat_false] at hb hw
    exact .inl (by omega)
  | nobody hn => exact .inr ⟨rfl, count_eq_zero.mpr hn⟩

theorem Notified.counts_other (h : Notified on th th') (on' : Op → Bool)
    (apart : ∀ op, on op = true → on' op = false) :
    count (Phase.isBlocked on') th' = count (Phase.isBlocked on') th ∧
      count (Phase.isWoken on') th' = count (Phase.isWoken on') th := by
  cases h with
  | @woke t op ht hop =>
    have hb := count_update (Phase.isBlocked on') th t (.woken op)
    have hw := count_update (Phase.isWoken on') th t (.woken op)
    simp only [ht, Phase.isBlocked, Phase.isWoken, apart op hop, Bool.toNat_false] at hb hw
    omega
  | nobody => exact ⟨rfl, rfl⟩

theorem Notified.counts_ready (h : Notified on th th') (on' : Op → Bool) :
    count (Phase.isReady on') th' = count (Phase.isReady on') th := by
  cases h with
  | @woke t op ht hop =>
    have hr := count_update (Phase.isReady on') th t (.woken op)
    simp only [ht, Phase.isReady, Bool.toNat_false] at hr
    omega
  | nobody => rfl

end

section

variable [Fintype ι] {on : Op → Bool} {th : ι → Phase Op Res}

theorem notifyAll_blocked : count (Phase.isBlocked on) (notifyAll on th) = 0 := by
  refine count_eq_zero.mpr fun t => ?_
  cases h : th t with
  | blocked op => by_cases hop : on op <;> simp [notifyAll, h, Phase.wake, Phase.isBlocked, hop]
  | _ => simp [notifyAll, h, Phase.wake, Phase.isBlocked]

end

end Leano.Lib
