import Leano.Lib.Run

universe u v w x y

namespace Leano.Lib

variable {σ : Type u} {α : Type v} {ε : Type w} {τ : Type x}

inductive History (step : σ → α → Option σ) (obs : σ → α → Option ε) (s₀ : σ) : List ε → σ → Prop
  | start : History step obs s₀ [] s₀
  | next {es s a t} : History step obs s₀ es s → step s a = some t →
      History step obs s₀ (es ++ (obs s a).toList) t

namespace History

variable {step : σ → α → Option σ} {obs : σ → α → Option ε} {s₀ s : σ} {es : List ε}

theorem reach (h : History step obs s₀ es s) : Reach step s₀ s := by
  induction h with
  | start => exact .start
  | next _ hs ih => exact .next ih trivial hs

/-- Where a part of the machine moves with what is seen and with nothing else, it makes the run of
its own that the history says. -/
theorem project {step' : τ → ε → Option τ} {g : σ → τ} (h : History step obs s₀ es s)
    (part : ∀ s a t, Reach step s₀ s → step s a = some t →
      run step' (g s) (obs s a).toList = some (g t)) :
    run step' (g s₀) es = some (g s) := by
  induction h with
  | start => rfl
  | next hr hs ih =>
    rw [run_append, ih]
    exact part _ _ _ hr.reach hs

end History

def record (step : σ → α → Option σ) (obs : σ → α → Option ε) :
    σ → List α → Option (List ε × σ)
  | s, [] => some ([], s)
  | s, a :: as =>
    (step s a).bind fun t => (record step obs t as).map fun r => ((obs s a).toList ++ r.1, r.2)

section record

variable {step : σ → α → Option σ} {obs : σ → α → Option ε} {s₀ s t : σ} {as : List α}
  {es fs : List ε}

theorem History.append_record (h : History step obs s₀ es s)
    (hr : record step obs s as = some (fs, t)) : History step obs s₀ (es ++ fs) t := by
  induction as generalizing s es fs with
  | nil =>
    cases hr
    rwa [List.append_nil]
  | cons a as ih =>
    obtain ⟨u, hs, hr⟩ := Option.bind_eq_some_iff.mp hr
    obtain ⟨⟨gs, v⟩, hu, eq⟩ := Option.map_eq_some_iff.mp hr
    cases eq
    rw [← List.append_assoc]
    exact ih (h.next hs) hu

theorem history_of_record (h : record step obs s as = some (es, t)) : History step obs s es t :=
  History.append_record .start h

theorem exists_history (step : σ → α → Option σ) (obs : σ → α → Option ε) (s₀ : σ) (as : List α)
    (p : List ε → σ → Bool) (h : (record step obs s₀ as).any (fun r => p r.1 r.2) = true) :
    ∃ es s, History step obs s₀ es s ∧ p es s = true := by
  obtain ⟨⟨es, s⟩, hr, hp⟩ := (Option.any_eq_true _ _).mp h
  exact ⟨es, s, history_of_record hr, hp⟩

end record

end Leano.Lib
