import Mathlib.Data.Fintype.BigOperators
import Mathlib.Algebra.Order.Group.Multiset

universe u v

namespace Leano.Lib

variable {κ : Type u} {V : Type v} [DecidableEq κ]

def logOf (log : List (κ × V)) (k : κ) : List V :=
  log.filterMap fun e => if e.1 = k then some e.2 else none

@[simp] theorem logOf_nil (k : κ) : logOf ([] : List (κ × V)) k = [] := rfl

@[simp] theorem logOf_append (log log' : List (κ × V)) (k : κ) :
    logOf (log ++ log') k = logOf log k ++ logOf log' k := by simp [logOf]

@[simp] theorem logOf_single_self (k : κ) (v : V) : logOf [(k, v)] k = [v] := by simp [logOf]

theorem logOf_single_of_ne {k k' : κ} (h : k' ≠ k) (v : V) : logOf [(k', v)] k = [] := by
  simp [logOf, h]

theorem logOf_map_of_ne {k k' : κ} (h : k' ≠ k) (vs : List V) :
    logOf (vs.map fun v => (k', v)) k = [] := by
  induction vs with
  | nil => rfl
  | cons v vs ih =>
    rw [List.map_cons, ← List.singleton_append, logOf_append, ih, logOf_single_of_ne h]
    rfl

theorem logOf_map_self (k : κ) (vs : List V) : logOf (vs.map fun v => (k, v)) k = vs := by
  induction vs with
  | nil => rfl
  | cons v vs ih =>
    rw [List.map_cons, ← List.singleton_append, logOf_append, ih, logOf_single_self]
    rfl

theorem coe_map_snd [Fintype κ] (log : List (κ × V)) :
    (log.map Prod.snd : Multiset V) = ∑ k, (logOf log k : Multiset V) := by
  induction log with
  | nil => simp
  | cons e log ih =>
    have split : ∀ k, (logOf (e :: log) k : Multiset V) =
        (if e.1 = k then {e.2} else 0) + (logOf log k : Multiset V) := by
      intro k
      rw [← List.singleton_append, logOf_append, ← Multiset.coe_add]
      by_cases hk : e.1 = k
      · simp [logOf, hk]
      · simp [logOf, hk]
    calc
      ((e :: log).map Prod.snd : Multiset V) = {e.2} + (log.map Prod.snd : Multiset V) := rfl
      _ = ∑ k, (if e.1 = k then {e.2} else 0) + ∑ k, (logOf log k : Multiset V) := by
        rw [ih, Finset.sum_ite_eq, if_pos (Finset.mem_univ _)]
      _ = ∑ k, (logOf (e :: log) k : Multiset V) := by
        rw [← Finset.sum_add_distrib]
        exact Finset.sum_congr rfl fun k _ => (split k).symm

section consistent

variable {E : Type u} {ok : List E → E → Prop} {log : List E} {e : E}

def Consistent (ok : List E → E → Prop) (log : List E) : Prop :=
  ∀ before e after, log = before ++ e :: after → ok before e

theorem consistent_nil : Consistent ok [] := by
  intro before e after split
  simp at split

theorem Consistent.snoc (h : Consistent ok log) (he : ok log e) : Consistent ok (log ++ [e]) := by
  intro before e' after split
  rcases List.eq_nil_or_concat after with rfl | ⟨init, last, rfl⟩
  · obtain ⟨rfl, one⟩ := List.append_inj' split rfl
    cases one
    exact he
  · rw [List.concat_eq_append, ← List.cons_append, ← List.append_assoc] at split
    exact h _ _ _ (List.append_inj' split rfl).1

end consistent

end Leano.Lib
