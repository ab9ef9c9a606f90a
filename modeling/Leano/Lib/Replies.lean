import Mathlib.Logic.Basic

/-! Machines that answer their calls one after another. Two of them give the same answers to every
sequence of calls, and are undefined at the same call, if a relation says so of each call. -/

universe u v w x

namespace Leano.Lib

variable {σ : Type u} {τ : Type v} {α : Type w} {β : Type x}

def answers (step : σ → α → Option (β × σ)) : σ → List α → Option (List β × σ)
  | s, [] => some ([], s)
  | s, a :: as =>
    (step s a).bind fun r => (answers step r.2 as).map fun q => (r.1 :: q.1, q.2)

def replies (step : σ → α → Option (β × σ)) (s : σ) (as : List α) : Option (List β) :=
  (answers step s as).map Prod.fst

def Agree {β : Type x} (R : σ → τ → Prop) : Option (β × σ) → Option (β × τ) → Prop :=
  Option.Rel fun r q => r.1 = q.1 ∧ R r.2 q.2

variable {R : σ → τ → Prop} {step : σ → α → Option (β × σ)} {step' : τ → α → Option (β × τ)}
  {s s' : σ} {t : τ} {as : List α} {b : β} {bs : List β}

theorem agree_some (h : R s t) : Agree R (some (b, s)) (some (b, t)) := .some ⟨rfl, h⟩

theorem agree_none : Agree R (none : Option (β × σ)) none := .none

theorem Agree.of_some {x : Option (β × τ)} (h : Agree R (some (b, s)) x) :
    ∃ t, x = some (b, t) ∧ R s t := by
  cases h with
  | @some _ r both => exact ⟨r.2, congrArg some (Prod.ext both.1.symm rfl), both.2⟩

theorem Agree.of_none {x : Option (β × τ)} (h : Agree R (none : Option (β × σ)) x) : x = none := by
  cases h
  rfl

theorem Agree.map {γ : Type*} {x : Option (β × σ)} {y : Option (β × τ)} (h : Agree R x y)
    (f : β → γ) : Agree R (x.map (Prod.map f id)) (y.map (Prod.map f id)) := by
  cases h with
  | none => exact agree_none
  | some both => exact .some ⟨congrArg f both.1, both.2⟩

theorem answers_agree (sim : ∀ s t a, R s t → Agree R (step s a) (step' t a)) (h : R s t)
    (as : List α) : Agree R (answers step s as) (answers step' t as) := by
  induction as generalizing s t with
  | nil => exact agree_some h
  | cons a as ih =>
    have agree := sim s t a h
    cases hs : step s a with
    | none =>
      rw [hs] at agree
      simp only [answers, hs, agree.of_none]
      exact agree_none
    | some r =>
      rw [hs] at agree
      obtain ⟨t', ht, later⟩ := agree.of_some
      have rest := ih later
      simp only [answers, hs, ht, Option.bind_some]
      cases hr : answers step r.2 as with
      | none =>
        rw [hr] at rest
        rw [rest.of_none]
        exact agree_none
      | some q =>
        rw [hr] at rest
        obtain ⟨u, hu, last⟩ := rest.of_some
        rw [hu]
        exact agree_some last

theorem replies_eq (sim : ∀ s t a, R s t → Agree R (step s a) (step' t a)) (h : R s t)
    (as : List α) : replies step s as = replies step' t as := by
  have agree := answers_agree sim h as
  unfold replies
  cases hs : answers step s as with
  | none =>
    rw [hs] at agree
    rw [agree.of_none]
    rfl
  | some r =>
    rw [hs] at agree
    obtain ⟨t', ht, -⟩ := agree.of_some
    rw [ht]
    rfl

theorem answers_of_agree (sim : ∀ s t a, R s t → Agree R (step s a) (step' t a)) (h : R s t)
    (run : answers step s as = some (bs, s')) :
    ∃ t', answers step' t as = some (bs, t') ∧ R s' t' := by
  have agree := answers_agree sim h as
  rw [run] at agree
  exact agree.of_some

theorem invariant_of_answers {I : List α → σ → Prop} (before : List α) (start : I before s)
    (run : answers step s as = some (bs, s'))
    (kept : ∀ as s a b s', I as s → step s a = some (b, s') → I (as ++ [a]) s') :
    I (before ++ as) s' := by
  induction as generalizing before s bs with
  | nil =>
    cases run
    rwa [List.append_nil]
  | cons a as ih =>
    obtain ⟨r, hr, run⟩ := Option.bind_eq_some_iff.mp run
    obtain ⟨q, hq, same⟩ := Option.map_eq_some_iff.mp run
    cases same
    rw [← List.singleton_append, ← List.append_assoc]
    exact ih _ (kept _ _ _ _ _ start hr) hq

end Leano.Lib
