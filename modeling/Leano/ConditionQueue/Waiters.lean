import Leano.ConditionQueue.Order

universe u v

namespace Leano.ConditionQueue

open Leano.Lib

variable {ι : Type v} {P : Type u}

def Op.isWaitPop : Op P → Bool
  | .waitPop => true
  | _ => false

def inLoop (ph : Phase (Op P) (Res P)) : Bool :=
  ph.isBlocked Op.isWaitPop || ph.isWoken Op.isWaitPop

@[simp] theorem inLoop_ready (op : Op P) : inLoop (.ready op) = false := rfl

@[simp] theorem inLoop_waitPop : inLoop (.woken .waitPop : Phase (Op P) (Res P)) = true := rfl

theorem inLoop_woken (op : Op P) : inLoop (.woken op) = inLoop (.blocked op) := by
  simp [inLoop, Phase.isBlocked, Phase.isWoken]

theorem inLoop_of_section {ph : Phase (Op P) (Res P)} {op : Op P} (h : ph.section? = some op)
    (hop : op ≠ .waitPop) : inLoop ph = false := by
  have hop : op.isWaitPop = false := by cases op <;> first | rfl | exact absurd rfl hop
  have woken := Phase.isWoken_of_section Op.isWaitPop h
  rw [hop] at woken
  simpa [inLoop, Phase.isBlocked_of_section _ h] using woken

/-- The test of the queue that this step makes in `wait_pop`, if it makes one, is the end of the
first round: a call finds the queue empty when it comes and an element when it wakes. -/
def OneRound (s : State ι P) : Act ι P → Prop
  | .run t _ =>
    (s.threads t = .ready .waitPop → s.q.dataqueue = []) ∧
      (s.threads t = .woken .waitPop → s.q.dataqueue ≠ [])
  | _ => True

instance [DecidableEq P] (s : State ι P) : (a : Act ι P) → Decidable (OneRound s a)
  | .run _ _ => inferInstanceAs (Decidable (_ ∧ _))
  | .call _ _ => isTrue trivial
  | .spurious _ => isTrue trivial
  | .timeout _ => isTrue trivial
  | .ret _ => isTrue trivial

theorem oneRound_of_quiet {s : State ι P} {a : Act ι P}
    (other : ∀ t w, a = .run t w → (s.threads t).section? ≠ some .waitPop) : OneRound s a := by
  cases a with
  | run t w =>
    constructor <;> intro ht <;> exact absurd (by rw [ht]; rfl) (other t w rfl)
  | _ => trivial

variable [Fintype ι]

def State.waiters (s : State ι P) : Nat := count inLoop s.threads

def Counted (s : State ι P) : Prop := s.waitSize = UInt32.ofNat s.waiters

variable {s s' : State ι P} {a : Act ι P}

theorem waiters_congr (h : ∀ t, inLoop (s'.threads t) = inLoop (s.threads t)) :
    s'.waiters = s.waiters :=
  total_congr fun t => congrArg Bool.toNat (h t)

variable [DecidableEq ι]

theorem waiters_update {t : ι} {ph : Phase (Op P) (Res P)}
    (h : s'.threads = Function.update s.threads t ph) :
    s'.waiters + (inLoop (s.threads t)).toNat = s.waiters + (inLoop ph).toNat := by
  unfold State.waiters
  rw [h]
  exact count_update _ _ _ _

theorem waiters_move {t : ι} {ph : Phase (Op P) (Res P)}
    (h : s'.threads = Function.update s.threads t ph) (same : inLoop ph = inLoop (s.threads t)) :
    s'.waiters = s.waiters := by
  have := waiters_update h
  rw [same] at this
  omega

theorem waiters_wake {th : ι → Phase (Op P) (Res P)} {t : ι} {ph : Phase (Op P) (Res P)}
    (woken : ∀ u, inLoop (th u) = inLoop (s.threads u)) (same : inLoop ph = inLoop (s.threads t)) :
    ({ s with threads := th }.setThread t ph).waiters = s.waiters := by
  apply waiters_congr
  intro u
  exact (apply_update_eq (same.trans (woken t).symm) u).trans (woken u)

theorem quiet_of_critical {t : ι} {w : Option ι} {op : Op P}
    (hs : (s.threads t).section? = some op) (hop : op ≠ .waitPop)
    (h : s.critical t w op = some s') : s'.waitSize = s.waitSize ∧ s'.waiters = s.waiters := by
  have out := inLoop_of_section hs hop
  cases op with
  | signal =>
    obtain ⟨th, hth, rfl⟩ := Option.map_eq_some_iff.mp h
    have hn := notified_of_notifyOne hth
    exact ⟨rfl, waiters_wake (hn.apply_eq inLoop_woken) out.symm⟩
  | tryPop =>
    cases h
    simp only [State.tryPop]
    split <;> exact ⟨rfl, waiters_move rfl out.symm⟩
  | waitPop => exact absurd rfl hop
  | waitTimeoutPop timeout =>
    cases h
    simp only [State.waitTimeoutPop]
    split <;> exact ⟨rfl, waiters_move rfl out.symm⟩
  | cleanQueueWith =>
    cases h
    exact ⟨rfl, waiters_wake (apply_notifyAll Op.waits s.threads inLoop_woken) out.symm⟩
  | _ => cases h; exact ⟨rfl, waiters_move rfl out.symm⟩

theorem quiet_of_step (hs : step s a = some s')
    (other : ∀ t w, a = .run t w → (s.threads t).section? ≠ some .waitPop) :
    s'.waitSize = s.waitSize ∧ s'.waiters = s.waiters := by
  cases a with
  | call t op =>
    cases step_cases hs with
    | call ht => exact ⟨rfl, waiters_move rfl (by rw [ht]; rfl)⟩
  | run t w =>
    obtain ⟨op, hop, h⟩ := Option.bind_eq_some_iff.mp hs
    apply quiet_of_critical hop ?_ h
    rintro rfl
    exact other t w rfl hop
  | spurious t =>
    cases step_cases hs with
    | spurious ht => exact ⟨rfl, waiters_move rfl (by rw [ht, inLoop_woken])⟩
  | timeout t =>
    simp only [step] at hs
    split at hs
    case h_1 ht => cases hs; exact ⟨rfl, waiters_move rfl (by rw [ht]; rfl)⟩
    case h_2 ht => cases hs; exact ⟨rfl, waiters_move rfl (by rw [ht]; rfl)⟩
    case h_3 => cases hs
  | ret t =>
    cases step_cases hs with
    | @ret t r ht =>
      rw [giveBack_popped]
      exact ⟨rfl, waiters_move rfl (by rw [ht]; rfl)⟩

theorem Counted.wait {t : ι} (hI : Counted s) (hq : s.q.dataqueue = []) :
    Counted (s.waitPop t) ↔ inLoop (s.threads t) = false := by
  have size : (s.waitPop t).waitSize = s.waitSize + 1 := by
    simp only [State.waitPop, hq]
    rfl
  have threads : (s.waitPop t).threads = Function.update s.threads t (.blocked .waitPop) := by
    simp only [State.waitPop, hq]
    rfl
  have moved : _ = s.waiters + 1 := waiters_update threads
  unfold Counted at hI ⊢
  rw [size, hI]
  cases hin : inLoop (s.threads t) with
  | false =>
    have moved : (s.waitPop t).waiters = s.waiters + 1 := by simpa [hin] using moved
    rw [moved]
    exact iff_of_true (UInt32.ofNat_add _ 1).symm rfl
  | true =>
    have same : (s.waitPop t).waiters = s.waiters := by simpa [hin] using moved
    rw [same]
    refine iff_of_false ?_ (by decide)
    grind

theorem Counted.pop {t : ι} (hI : Counted s) (hq : s.q.dataqueue ≠ []) :
    Counted (s.waitPop t) ↔ inLoop (s.threads t) = true := by
  obtain ⟨ptr, rest, hq⟩ := List.exists_cons_of_ne_nil hq
  have size : (s.waitPop t).waitSize = s.waitSize - 1 := by
    simp only [State.waitPop, hq]
    rfl
  have threads : (s.waitPop t).threads =
      Function.update s.threads t (.returned (.pop ptr true)) := by
    simp only [State.waitPop, hq]
    rfl
  have moved : _ = s.waiters := waiters_update threads
  unfold Counted at hI ⊢
  rw [size, hI, ← moved]
  cases hin : inLoop (s.threads t) with
  | false =>
    refine iff_of_false ?_ (by decide)
    simp only [Bool.toNat_false, add_zero]
    grind
  | true =>
    refine iff_of_true ?_ rfl
    rw [Bool.toNat_true, UInt32.ofNat_add]
    grind

theorem Counted.waitPop {t : ι} (hI : Counted s) (w : Option ι)
    (hop : (s.threads t).section? = some .waitPop) :
    Counted (s.waitPop t) ↔ OneRound s (.run t w) := by
  unfold OneRound
  have test : Counted (s.waitPop t) ↔
      (inLoop (s.threads t) = true ↔ s.q.dataqueue ≠ []) := by
    by_cases hq : s.q.dataqueue = []
    · rw [hI.wait hq]
      simp [hq]
    · rw [hI.pop hq]
      simp [hq]
  rw [test]
  cases ht : s.threads t with
  | ready op => rw [ht] at hop; cases hop; simp [ht]
  | woken op => rw [ht] at hop; cases hop; simp [ht]
  | _ => rw [ht] at hop; cases hop

theorem Counted.step (hI : Counted s) (hs : step s a = some s') :
    Counted s' ↔ OneRound s a := by
  by_cases other : ∀ t w, a = .run t w → (s.threads t).section? ≠ some .waitPop
  · obtain ⟨same, same'⟩ := quiet_of_step hs other
    have kept : Counted s' := by rw [Counted, same, same', hI]
    exact iff_of_true kept (oneRound_of_quiet other)
  · push Not at other
    obtain ⟨t, w, rfl, hop⟩ := other
    obtain ⟨op, hop', h⟩ := Option.bind_eq_some_iff.mp hs
    cases hop.symm.trans hop'
    cases h
    exact hI.waitPop w hop

/-- While every call of `wait_pop` that waits makes one round `wait_size()` is the number of
threads in its loop, and the next step keeps it so exactly if it makes one round, too. -/
theorem waitSize_counts (h : ReachIf step OneRound State.init s) :
    s.waitSize = UInt32.ofNat s.waiters ∧
    ∀ a s', step s a = some s' → (s'.waitSize = UInt32.ofNat s'.waiters ↔ OneRound s a) := by
  have counted : Counted s := by
    refine h.invariant (I := Counted) ?_ fun s a s' _ hI once hs => (hI.step hs).mpr once
    have none : State.waiters (State.init : State ι P) = 0 := count_eq_zero.mpr fun _ => rfl
    rw [Counted, none]
    rfl
  exact ⟨counted, fun a s' hs => counted.step hs⟩

theorem waitSize_counts_of_three :
    ∃ s : State (Fin 3) Nat, (s.waitSize = 1 ∧ s.popped = [(0, some 7)]) ∧
      s.waitSize = UInt32.ofNat s.waiters ∧
      ∀ a s', step s a = some s' → (s'.waitSize = UInt32.ofNat s'.waiters ↔ OneRound s a) := by
  obtain ⟨s, hs, hp⟩ := exists_reachIf step OneRound State.init
    [.call 0 .waitPop, .run 0 none, .call 2 (.push (some 7)), .run 2 none, .run 2 (some 0),
      .run 0 none, .ret 0, .call 1 .waitPop, .run 1 none]
    (fun s : State (Fin 3) Nat => decide (s.waitSize = 1 ∧ s.popped = [(0, some 7)])) (by decide)
  exact ⟨s, of_decide_eq_true hp, waitSize_counts hs⟩

/-- A `wait_pop` that finds an element takes the counter below zero, with nobody in any call. -/
theorem waitSize_wraps :
    ¬ ∀ s : State (Fin 1) Nat, Reach step State.init s → s.waitSize = UInt32.ofNat s.waiters := by
  intro all
  obtain ⟨s, hs, hp⟩ := exists_reach step State.init
    [.call 0 (.push (some 7)), .run 0 none, .run 0 none, .ret 0, .call 0 .waitPop, .run 0 none,
      .ret 0]
    (fun s : State (Fin 1) Nat => decide (s.waitSize = 4294967295 ∧ s.waiters = 0 ∧
      s.threads 0 = .idle)) (by decide)
  obtain ⟨size, none, -⟩ := of_decide_eq_true hp
  have counted := all s hs
  rw [size, none] at counted
  exact absurd counted (by decide)

end Leano.ConditionQueue
