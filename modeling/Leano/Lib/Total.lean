import Mathlib.Algebra.BigOperators.Group.Finset.Basic
import Mathlib.Algebra.Order.BigOperators.Group.Finset
import Mathlib.Data.Fintype.BigOperators

universe u v w

namespace Leano.Lib

variable {ι : Type u}

theorem forall_update {A : Type v} [DecidableEq ι] {Q : A → Prop} {th : ι → A}
    (all : ∀ t, Q (th t)) {t : ι} {a : A} (new : Q a) : ∀ u, Q (Function.update th t a u) := by
  intro u
  by_cases hu : u = t
  · subst hu
    rwa [Function.update_self]
  · rw [Function.update_of_ne hu]
    exact all u

theorem apply_update_eq {A : Type v} {β : Type w} [DecidableEq ι] {f : A → β} {th : ι → A}
    {t : ι} {a : A} (h : f a = f (th t)) (u : ι) : f (Function.update th t a u) = f (th u) := by
  by_cases hu : u = t
  · subst hu
    rwa [Function.update_self]
  · rw [Function.update_of_ne hu]

variable {P : Type v} {M : Type w} [Fintype ι]

def total [AddCommMonoid M] (f : P → M) (th : ι → P) : M := ∑ t, f (th t)

def count (p : P → Bool) (th : ι → P) : Nat := total (fun x => (p x).toNat) th

theorem total_update [AddCommMonoid M] [DecidableEq ι] (f : P → M) (th : ι → P) (t : ι) (x : P) :
    total f (Function.update th t x) + f (th t) = total f th + f x := by
  have rest : ∑ u ∈ Finset.univ.erase t, f (Function.update th t x u) =
      ∑ u ∈ Finset.univ.erase t, f (th u) :=
    Finset.sum_congr rfl fun u hu => by rw [Function.update_of_ne (Finset.ne_of_mem_erase hu)]
  have old := Finset.add_sum_erase Finset.univ (fun u => f (th u)) (Finset.mem_univ t)
  have new := Finset.add_sum_erase Finset.univ (fun u => f (Function.update th t x u))
    (Finset.mem_univ t)
  simp only [Function.update_self, rest] at new
  calc
    total f (Function.update th t x) + f (th t) =
        f x + ∑ u ∈ Finset.univ.erase t, f (th u) + f (th t) := by rw [total, ← new]
    _ = f (th t) + ∑ u ∈ Finset.univ.erase t, f (th u) + f x := by
      rw [add_comm (f x), add_right_comm, add_comm _ (f (th t))]
    _ = total f th + f x := by rw [old, total]

theorem total_move [AddCancelCommMonoid M] [DecidableEq ι] {f : P → M} (th : ι → P) {t : ι} {x : P}
    {d e : M} (share : f x + e = f (th t) + d) :
    total f (Function.update th t x) + e = total f th + d := by
  apply add_right_cancel (b := f (th t))
  calc
    total f (Function.update th t x) + e + f (th t) =
        total f (Function.update th t x) + f (th t) + e := add_right_comm _ _ _
    _ = total f th + (f x + e) := by rw [total_update, add_assoc]
    _ = total f th + d + f (th t) := by rw [share, add_comm (f (th t)), add_assoc]

theorem count_update [DecidableEq ι] (p : P → Bool) (th : ι → P) (t : ι) (x : P) :
    count p (Function.update th t x) + (p (th t)).toNat = count p th + (p x).toNat :=
  total_update _ th t x

theorem total_congr [AddCommMonoid M] {Q : Type v} {f : P → M} {g : Q → M} {th : ι → P}
    {th' : ι → Q} (h : ∀ t, f (th t) = g (th' t)) : total f th = total g th' :=
  Finset.sum_congr rfl fun t _ => h t

theorem total_eq_zero [AddCommMonoid M] {f : P → M} {th : ι → P} (h : ∀ t, f (th t) = 0) :
    total f th = 0 := Finset.sum_eq_zero fun t _ => h t

section

variable [AddCommMonoid M] [PartialOrder M] [CanonicallyOrderedAdd M]
  {f : P → M} {th : ι → P}

theorem share_le_total (t : ι) : f (th t) ≤ total f th :=
  Finset.single_le_sum_of_canonicallyOrdered (f := fun t => f (th t)) (Finset.mem_univ t)

theorem add_le_total {t u : ι} (h : t ≠ u) : f (th t) + f (th u) ≤ total f th := by
  classical
  calc
    f (th t) + f (th u) = ∑ v ∈ {t, u}, f (th v) :=
      (Finset.sum_pair (f := fun v => f (th v)) h).symm
    _ ≤ total f th := Finset.sum_le_sum_of_subset (Finset.subset_univ _)

end

theorem count_pos {p : P → Bool} {th : ι → P} : 0 < count p th ↔ ∃ t, p (th t) = true := by
  simp [count, total, Nat.pos_iff_ne_zero]

theorem count_eq_zero {p : P → Bool} {th : ι → P} : count p th = 0 ↔ ∀ t, p (th t) = false := by
  simp [count, total]

end Leano.Lib
