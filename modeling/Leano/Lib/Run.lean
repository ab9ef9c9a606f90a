import Mathlib.Data.List.Induction

/-! Runs of a labelled machine whose step is a partial function of state and label.
A label that is not enabled has no successor. -/

universe u v w x

namespace Leano.Lib

variable {σ : Type u} {α : Type v} {τ : Type w} {β : Type x}

/-- The states reached from `s₀` by runs whose every step meets `ok`. -/
inductive ReachIf (step : σ → α → Option σ) (ok : σ → α → Prop) (s₀ : σ) : σ → Prop
  | start : ReachIf step ok s₀ s₀
  | next {s a t} : ReachIf step ok s₀ s → ok s a → step s a = some t → ReachIf step ok s₀ t

abbrev Reach (step : σ → α → Option σ) (s₀ : σ) : σ → Prop :=
  ReachIf step (fun _ _ => True) s₀

namespace ReachIf

variable {step : σ → α → Option σ} {ok : σ → α → Prop} {s₀ s t : σ}

theorem weaken {ok' : σ → α → Prop} (hok : ∀ s a, ok s a → ok' s a)
    (h : ReachIf step ok s₀ s) : ReachIf step ok' s₀ s := by
  induction h with
  | start => exact .start
  | next _ ha hs ih => exact .next ih (hok _ _ ha) hs

theorem reach (h : ReachIf step ok s₀ s) : Reach step s₀ s :=
  h.weaken fun _ _ _ => trivial

/-- The invariant rule: what holds at the start and is kept by every step that meets `ok` from
a reached state holds in every state reached. -/
theorem invariant {I : σ → Prop} (h : ReachIf step ok s₀ s) (start : I s₀)
    (next : ∀ s a t, ReachIf step ok s₀ s → I s → ok s a → step s a = some t → I t) : I s := by
  induction h with
  | start => exact start
  | next hr ha hs ih => exact next _ _ _ hr ih ha hs

theorem trans (h : ReachIf step ok s₀ s) (k : ReachIf step ok s t) : ReachIf step ok s₀ t := by
  induction k with
  | start => exact h
  | next _ ha hs ih => exact .next ih ha hs

/-- Forward simulation: a relation that every step either keeps on its left side alone or answers
with a step of the other machine relates each reached state to a reached state. -/
theorem simulate {step' : τ → β → Option τ} {R : σ → τ → Prop} {t₀ : τ}
    (h : ReachIf step ok s₀ s) (start : R s₀ t₀)
    (sim : ∀ s a s' t, R s t → ok s a → step s a = some s' →
      R s' t ∨ ∃ b t', step' t b = some t' ∧ R s' t') :
    ∃ t, Reach step' t₀ t ∧ R s t := by
  induction h with
  | start => exact ⟨t₀, .start, start⟩
  | next _ ha hs ih =>
    obtain ⟨t, ht, hR⟩ := ih
    obtain same | ⟨b, t', hb, hR'⟩ := sim _ _ _ _ hR ha hs
    · exact ⟨t, ht, same⟩
    · exact ⟨t', .next ht trivial hb, hR'⟩

theorem map {step' : τ → β → Option τ} (f : σ → τ) (h : ReachIf step ok s₀ s)
    (sim : ∀ s a t, ok s a → step s a = some t → f t = f s ∨ ∃ b, step' (f s) b = some (f t)) :
    Reach step' (f s₀) (f s) := by
  have image : ∃ t, Reach step' (f s₀) t ∧ f s = t := by
    refine h.simulate (R := fun s t => f s = t) rfl ?_
    rintro s a s' _ rfl ha hs
    obtain same | ⟨b, hb⟩ := sim s a s' ha hs
    · exact .inl same
    · exact .inr ⟨b, _, hb, rfl⟩
  obtain ⟨t, ht, rfl⟩ := image
  exact ht

end ReachIf

def runIf (step : σ → α → Option σ) (ok : σ → α → Prop) [∀ s a, Decidable (ok s a)] :
    σ → List α → Option σ
  | s, [] => some s
  | s, a :: as => if ok s a then (step s a).bind fun t => runIf step ok t as else none

section

variable {step : σ → α → Option σ} {ok : σ → α → Prop} [∀ s a, Decidable (ok s a)]

theorem reachIf_of_runIf {as : List α} {s t : σ} (h : runIf step ok s as = some t) :
    ReachIf step ok s t := by
  induction as generalizing s with
  | nil => cases h; exact .start
  | cons a as ih =>
    simp only [runIf] at h
    split at h
    case isTrue ha =>
      obtain ⟨u, hs, hu⟩ := Option.bind_eq_some_iff.mp h
      exact (ReachIf.next .start ha hs).trans (ih hu)
    case isFalse => cases h

end

def run (step : σ → α → Option σ) (s : σ) (as : List α) : Option σ := as.foldlM step s

section

variable {step : σ → α → Option σ} {a : α} {as bs : List α} {s t : σ}

@[simp] theorem run_nil : run step s [] = some s := rfl

@[simp] theorem run_cons : run step s (a :: as) = (step s a).bind fun t => run step t as :=
  List.foldlM_cons

theorem run_append : run step s (as ++ bs) = (run step s as).bind fun t => run step t bs :=
  List.foldlM_append

theorem run_concat : run step s (as ++ [a]) = (run step s as).bind fun t => step t a := by
  rw [run_append]
  refine congrArg (Option.bind _) (funext fun t => ?_)
  rw [run_cons]
  cases step t a <;> rfl

theorem reach_of_run (h : run step s as = some t) : Reach step s t := by
  induction as generalizing s with
  | nil => cases h; exact .start
  | cons a as ih =>
    obtain ⟨u, hs, hu⟩ := Option.bind_eq_some_iff.mp (run_cons ▸ h)
    exact (ReachIf.next .start trivial hs).trans (ih hu)

end

def Along (step : σ → α → Option σ) (P : σ → Prop) (s : σ) (as : List α) : Prop :=
  ∀ before t, before <+: as → run step s before = some t → P t

section

variable {step : σ → α → Option σ} {P : σ → Prop} {a : α} {as : List α} {s t : σ}

@[simp] theorem along_nil : Along step P s [] ↔ P s := by
  refine ⟨fun h => h [] s List.prefix_rfl rfl, fun h before t first ht => ?_⟩
  cases List.prefix_nil.mp first
  cases ht
  exact h

theorem along_cons (hs : step s a = some t) :
    Along step P s (a :: as) ↔ P s ∧ Along step P t as := by
  constructor
  · refine fun h => ⟨h [] s List.nil_prefix rfl, fun before u first hu => ?_⟩
    refine h (a :: before) u (List.cons_prefix_cons.mpr ⟨rfl, first⟩) ?_
    rw [run_cons, hs]
    exact hu
  · rintro ⟨now, later⟩ before u first hu
    cases before with
    | nil => cases hu; exact now
    | cons b before =>
      obtain ⟨rfl, rest⟩ := List.cons_prefix_cons.mp first
      rw [run_cons, hs] at hu
      exact later before u rest hu

end

def EveryStep (step : σ → α → Option σ) (P : σ → α → σ → Prop) (s : σ) (as : List α) : Prop :=
  ∀ before a after u t, as = before ++ a :: after → run step s before = some u →
    step u a = some t → P u a t

theorem everyStep_cons {step : σ → α → Option σ} {P : σ → α → σ → Prop} {a : α} {as : List α}
    {s t : σ} (hs : step s a = some t) :
    EveryStep step P s (a :: as) ↔ P s a t ∧ EveryStep step P t as := by
  constructor
  · refine fun h => ⟨h [] a as s t rfl rfl hs, fun before b after u v eq hu hv => ?_⟩
    refine h (a :: before) b after u v (congrArg _ eq) ?_ hv
    rw [run_cons, hs]
    exact hu
  · rintro ⟨now, later⟩ before b after u v eq hu hv
    cases before with
    | nil =>
      cases hu
      cases eq
      obtain rfl := Option.some.inj (hs.symm.trans hv)
      exact now
    | cons c before =>
      obtain ⟨rfl, rest⟩ := List.cons_eq_cons.mp eq
      rw [run_cons, hs] at hu
      exact later before b after u v rest hu hv

theorem everyStep_of_stuck {step : σ → α → Option σ} {P : σ → α → σ → Prop} {a : α} {as : List α}
    {s : σ} (hs : step s a = none) : EveryStep step P s (a :: as) := by
  intro before b after u t eq hu ht
  cases before with
  | nil =>
    cases hu
    cases eq
    cases hs.symm.trans ht
  | cons c before =>
    obtain ⟨rfl, -⟩ := List.cons_eq_cons.mp eq
    rw [run_cons, hs] at hu
    cases hu

theorem everyStep_concat {step : σ → α → Option σ} {P : σ → α → σ → Prop} {a : α} {as : List α}
    {s : σ} (h : EveryStep step P s as)
    (last : ∀ u t, run step s as = some u → step u a = some t → P u a t) :
    EveryStep step P s (as ++ [a]) := by
  intro before b after u t eq hu ht
  obtain rfl | ⟨after, c, rfl⟩ := List.eq_nil_or_concat after
  · obtain ⟨rfl, same⟩ := List.append_inj' eq rfl
    cases same
    exact last u t hu ht
  · rw [List.concat_eq_append, ← List.cons_append, ← List.append_assoc] at eq
    exact h before b after u t (List.append_inj' eq rfl).1 hu ht

theorem everyStep_congr {step : σ → α → Option σ} {P Q : σ → α → σ → Prop} {s : σ} {as : List α}
    (h : ∀ u a t, Reach step s u → step u a = some t → (P u a t ↔ Q u a t)) :
    EveryStep step P s as ↔ EveryStep step Q s as := by
  refine forall₅_congr fun before a after u t => imp_congr_right fun _ => ?_
  exact imp_congr_right fun hu => imp_congr_right fun ht => h u a t (reach_of_run hu) ht

/-- Where a step from a good state keeps it good exactly if it is itself good. -/
theorem along_iff_everyStep {step : σ → α → Option σ} {P : σ → Prop} {Q : σ → α → σ → Prop}
    {s : σ} {as : List α} (start : P s)
    (h : ∀ u a t, Reach step s u → P u → step u a = some t → (P t ↔ Q u a t)) :
    Along step P s as ↔ EveryStep step Q s as := by
  constructor
  · intro along before a after u t eq hu ht
    have first : before ++ [a] <+: as := ⟨after, by rw [eq, List.append_assoc]; rfl⟩
    have good : P u := along before u ((List.prefix_append _ _).trans first) hu
    refine (h u a t (reach_of_run hu) good ht).mp (along _ t first ?_)
    rw [run_concat, hu]
    exact ht
  · intro every before
    induction before using List.reverseRecOn with
    | nil =>
      intro t _ ht
      cases ht
      exact start
    | append_singleton before a ih =>
      intro t first ht
      obtain ⟨u, hu, hs⟩ := Option.bind_eq_some_iff.mp (run_concat ▸ ht)
      obtain ⟨after, eq⟩ := first
      rw [List.append_assoc] at eq
      have good := ih u ⟨_, eq⟩ hu
      exact (h u a t (reach_of_run hu) good hs).mpr (every before a after u t eq.symm hu hs)

theorem exists_reachIf (step : σ → α → Option σ) (ok : σ → α → Prop) [∀ s a, Decidable (ok s a)]
    (s₀ : σ) (as : List α) (p : σ → Bool) (h : (runIf step ok s₀ as).any p = true) :
    ∃ s, ReachIf step ok s₀ s ∧ p s = true := by
  cases hr : runIf step ok s₀ as with
  | none => simp [hr] at h
  | some s => exact ⟨s, reachIf_of_runIf hr, by simpa [hr] using h⟩

theorem exists_reach (step : σ → α → Option σ) (s₀ : σ) (as : List α) (p : σ → Bool)
    (h : (runIf step (fun _ _ => True) s₀ as).any p = true) :
    ∃ s, Reach step s₀ s ∧ p s = true := exists_reachIf step _ s₀ as p h

end Leano.Lib
