import Mathlib.Logic.Function.Basic

universe u

namespace Leano.Lib

variable {ι : Type u}

def Exclusive (inside : ι → Bool) (holder : Option ι) : Prop :=
  ∀ t, inside t = true ↔ holder = some t

namespace Exclusive

variable [DecidableEq ι] {inside : ι → Bool} {holder : Option ι} {t : ι} {b : Bool}

theorem enter (h : Exclusive inside none) (t : ι) :
    Exclusive (Function.update inside t true) (some t) := by
  intro u
  by_cases hu : u = t
  · simp [hu]
  · simpa [Function.update_of_ne hu, Ne.symm hu] using (h u).not.mpr nofun

theorem leave (h : Exclusive inside holder) (ht : inside t = true) :
    Exclusive (Function.update inside t false) none := by
  intro u
  by_cases hu : u = t
  · simp [hu]
  · have out : ¬ inside u = true := by
      rw [h u, (h t).mp ht]
      simpa using Ne.symm hu
    simpa [Function.update_of_ne hu] using out

theorem stay (h : Exclusive inside holder) (hb : b = inside t) :
    Exclusive (Function.update inside t b) holder := by
  rwa [hb, Function.update_eq_self]

end Exclusive

end Leano.Lib
