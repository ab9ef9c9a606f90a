import Leano.Lib.Run

/-! Runs of a machine seen from their first step: what holds ahead of a state, and where its runs
end. -/

universe u v

namespace Leano.Lib

variable {σ : Type u} {α : Type v} {step : σ → α → Option σ} {P : σ → Prop} {ok : α → Prop}
  {s t u : σ}

theorem reach_iff_head :
    Reach step s t ↔ s = t ∨ ∃ a u, step s a = some u ∧ Reach step u t := by
  constructor
  · intro h
    induction h with
    | start => exact .inl rfl
    | next _ _ hs ih =>
      rcases ih with rfl | ⟨a, u, hu, reach⟩
      · exact .inr ⟨_, _, hs, .start⟩
      · exact .inr ⟨a, u, hu, .next reach trivial hs⟩
  · rintro (rfl | ⟨a, u, hu, reach⟩)
    · exact .start
    · exact (ReachIf.next .start trivial hu).trans reach

def Always (step : σ → α → Option σ) (P : σ → Prop) (s : σ) : Prop := ∀ t, Reach step s t → P t

theorem always_iff : Always step P s ↔ P s ∧ ∀ a t, step s a = some t → Always step P t := by
  constructor
  · intro h
    refine ⟨h s .start, fun a t ht u hu => h u ?_⟩
    exact reach_iff_head.mpr (.inr ⟨a, t, ht, hu⟩)
  · rintro ⟨now, later⟩ t ht
    rcases reach_iff_head.mp ht with rfl | ⟨a, u, hu, reach⟩
    · exact now
    · exact later a u hu t reach

theorem always_iff_next [Nonempty α] (h : ∀ a, step s a = some t) :
    Always step P s ↔ P s ∧ Always step P t := by
  rw [always_iff]
  refine and_congr_right fun _ => ⟨fun later => ?_, fun later a u hu => ?_⟩
  · obtain ⟨a⟩ := ‹Nonempty α›
    exact later a t (h a)
  · obtain rfl := Option.some.inj ((h a).symm.trans hu)
    exact later

def Stuck (step : σ → α → Option σ) (s : σ) : Prop := ∀ a, step s a = none

theorem Stuck.always_iff (h : Stuck step s) : Always step P s ↔ P s := by
  rw [Lib.always_iff, and_iff_left]
  intro a t ht
  cases (h a).symm.trans ht

def Halts (step : σ → α → Option σ) (s : σ) : Prop := Acc (fun t s => ∃ a, step s a = some t) s

theorem halts_iff : Halts step s ↔ ∀ a t, step s a = some t → Halts step t :=
  ⟨fun h _ _ ht => h.inv ⟨_, ht⟩, fun h => ⟨s, fun t ⟨a, ht⟩ => h a t ht⟩⟩

theorem halts_iff_next [Nonempty α] (h : ∀ a, step s a = some t) :
    Halts step s ↔ Halts step t := by
  rw [halts_iff]
  refine ⟨fun later => ?_, fun later a u hu => ?_⟩
  · obtain ⟨a⟩ := ‹Nonempty α›
    exact later a t (h a)
  · obtain rfl := Option.some.inj ((h a).symm.trans hu)
    exact later

theorem Stuck.halts (h : Stuck step s) : Halts step s := by
  refine halts_iff.mpr fun a t ht => ?_
  cases (h a).symm.trans ht

/-- A measure that every step lowers where the invariant holds. -/
theorem halts_of_lowers {I : σ → Prop} (rank : σ → Nat)
    (kept : ∀ s a t, I s → step s a = some t → I t ∧ rank t < rank s) (start : I s) :
    Halts step s := by
  induction hr : rank s using Nat.strongRecOn generalizing s with
  | _ r ih =>
    refine halts_iff.mpr fun a t ht => ?_
    obtain ⟨later, lower⟩ := kept s a t start ht
    exact ih (rank t) (hr ▸ lower) later rfl

def only (p : α → Bool) (step : σ → α → Option σ) (s : σ) (a : α) : Option σ :=
  if p a then step s a else none

theorem only_eq_some {p : α → Bool} {a : α} :
    only p step s a = some t ↔ p a = true ∧ step s a = some t := by
  simp [only]

theorem reach_of_only {p : α → Bool} (h : Reach (only p step) s t) : Reach step s t := by
  induction h with
  | start => exact .start
  | next _ _ hs ih => exact .next ih trivial (only_eq_some.mp hs).2

theorem Stuck.of_only {p : α → Bool} (h : Stuck (only p step) s) {a : α} (ha : p a = true) :
    step s a = none := by
  simpa [only, ha] using h a

inductive Leads (step : σ → α → Option σ) (ok : α → Prop) : σ → σ → Prop
  | refl (s : σ) : Leads step ok s s
  | next {s t u : σ} : (∀ a, ok a → step s a = some t) → Leads step ok t u → Leads step ok s u

namespace Leads

theorem trans (h : Leads step ok s t) (k : Leads step ok t u) : Leads step ok s u := by
  induction h with
  | refl => exact k
  | next hs _ ih => exact .next hs (ih k)

theorem weaken {ok' : α → Prop} (hok : ∀ a, ok' a → ok a) (h : Leads step ok s t) :
    Leads step ok' s t := by
  induction h with
  | refl => exact .refl _
  | next hs _ ih => exact .next (fun a ha => hs a (hok a ha)) ih

theorem reachIf {a : α} (ha : ok a) (h : Leads step ok s t) :
    ReachIf step (fun _ b => b = a) s t := by
  induction h with
  | refl => exact .start
  | @next s t _ hs _ ih =>
    have first : ReachIf step (fun _ b => b = a) s t := .next .start rfl (hs a ha)
    exact first.trans ih

section all

variable (h : Leads step (fun _ => True) s t)
include h

theorem halts (stuck : Stuck step t) : Halts step s := by
  induction h with
  | refl => exact stuck.halts
  | next hs _ ih =>
    refine halts_iff.mpr fun a t ht => ?_
    obtain rfl := Option.some.inj ((hs a trivial).symm.trans ht)
    exact ih stuck

theorem reach_of_stuck [Nonempty α] (reach : Reach step s u) (stuck : Stuck step u) :
    Reach step t u := by
  induction h with
  | refl => exact reach
  | next hs _ ih =>
    rcases reach_iff_head.mp reach with rfl | ⟨a, v, hv, reach⟩
    · obtain ⟨a⟩ := ‹Nonempty α›
      cases (stuck a).symm.trans (hs a trivial)
    · obtain rfl := Option.some.inj ((hs a trivial).symm.trans hv)
      exact ih reach

end all

end Leads

end Leano.Lib
