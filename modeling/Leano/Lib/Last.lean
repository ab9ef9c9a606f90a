import Leano.Lib.Run

universe u v w

namespace Leano.Lib

variable {σ : Type u} {α : Type v} {β : Type w}

def last (f : α → Option β) (as : List α) : Option β := as.reverse.findSome? f

section

variable {f : α → Option β} {a : α} {as : List α}

@[simp] theorem last_nil : last f [] = none := rfl

theorem last_cons : last f (a :: as) = (last f as).or (f a) := by
  simp [last, List.findSome?_append]

theorem last_map {γ : Type w} (g : β → γ) : last (fun a => (f a).map g) as = (last f as).map g :=
  List.map_findSome?.symm

theorem last_of_run {step : σ → α → Option σ} {I : σ → Prop} {g : σ → Option β} {s t : σ}
    (keep : ∀ s a t, I s → step s a = some t → I t)
    (cell : ∀ s a t, I s → step s a = some t → g t = (f a).or (g s))
    (start : I s) (h : run step s as = some t) : g t = (last f as).or (g s) := by
  induction as generalizing s with
  | nil => cases h; rfl
  | cons a as ih =>
    obtain ⟨u, hs, hu⟩ := Option.bind_eq_some_iff.mp (run_cons ▸ h)
    rw [ih (keep s a u start hs) hu, cell s a u start hs, last_cons, Option.or_assoc]

theorem last_const {p : α → Bool} (b : β) :
    last (fun a => if p a then some b else none) as = if as.any p then some b else none := by
  induction as with
  | nil => rfl
  | cons a as ih =>
    rw [last_cons, ih, List.any_cons]
    cases p a <;> cases as.any p <;> rfl

end

end Leano.Lib
