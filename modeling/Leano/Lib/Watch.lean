import Leano.Lib.Run

universe u v w

namespace Leano.Lib

structure Watched (σ : Type u) (ω : Type w) where
  state : σ
  seen : ω

variable {σ : Type u} {α : Type v} {ω : Type w}

def watch (step : σ → α → Option σ) (see : ω → σ → α → ω) (v : Watched σ ω) (a : α) :
    Option (Watched σ ω) :=
  (step v.state a).map fun t => ⟨t, see v.seen v.state a⟩

variable {step : σ → α → Option σ} {see : ω → σ → α → ω} {v v' : Watched σ ω} {a : α}

theorem eq_of_watch (h : watch step see v a = some v') :
    ∃ t, step v.state a = some t ∧ v' = ⟨t, see v.seen v.state a⟩ := by
  obtain ⟨t, ht, rfl⟩ := Option.map_eq_some_iff.mp h
  exact ⟨t, ht, rfl⟩

theorem ReachIf.unwatch {ok : Watched σ ω → α → Prop} (h : ReachIf (watch step see) ok v v') :
    Reach step v.state v'.state := by
  refine h.map Watched.state ?_
  intro v a v' _ hs
  obtain ⟨t, ht, rfl⟩ := eq_of_watch hs
  exact .inr ⟨a, ht⟩

end Leano.Lib
