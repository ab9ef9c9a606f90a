import Leano.ConnPool.Books
import Leano.Lib.Custody
import Mathlib.Data.Multiset.OrderedMonoid

universe u v

namespace Leano.ConnPool

open Leano.Lib

variable {ι : Type v} {K : Type u}

theorem coe_snoc (l : List K) (k : K) : k ::ₘ (l : Multiset K) = (l ++ [k] : List K) := by
  rw [← Multiset.coe_add, Multiset.coe_singleton, add_comm, Multiset.singleton_add]

variable [Fintype ι]

structure Shows (s : State ι K) (c : Custody K) : Prop where
  idle : c.idle = s.connList
  lent : c.lent = s.lent
  gone : c.gone = s.deleted
  made : c.all = s.made

theorem shows_new (maxSize : Int) : Shows (State.new maxSize : State ι K) Custody.empty where
  idle := rfl
  lent := (total_eq_zero fun _ => rfl).symm
  gone := rfl
  made := rfl

variable {s s' : State ι K} {c : Custody K}

theorem Shows.fresh (h : Shows s c) {k : K} (hk : k ∉ s.made) : k ∉ c.all := by
  rw [h.made]
  exact hk

variable [DecidableEq ι]

theorem lent_some {t : ι} (ht : (s.callers t).pc = .inside .getConnection) (k : K) :
    (s.answer t (.connection (some k))).lent = k ::ₘ s.lent := by
  rw [lent_connection ht, add_comm]
  exact Multiset.singleton_add k s.lent

theorem lent_none {t : ι} (ht : (s.callers t).pc = .inside .getConnection) :
    (s.answer t (.connection none)).lent = s.lent :=
  (lent_connection ht none).trans (add_zero _)

variable [DecidableEq K] {a : Act ι K}

/-- Every step of the pool is a sequence of moves in custody. -/
theorem Shows.step (h : Shows s c) (hs : step s a = some s') : ∃ c', Shows s' c' := by
  have ⟨idle, lent, gone, made⟩ := h
  cases step_cases hs with
  | @init i k hi more fresh =>
    refine ⟨c.make k (h.fresh fresh), ?_, lent, gone, ?_⟩
    · exact (congrArg _ idle).trans (coe_snoc _ _)
    · rw [Custody.all_make, made]
      exact coe_snoc _ _
  | initFailed => exact ⟨c, idle, lent, gone, made⟩
  | constructed => exact ⟨c, idle, lent, gone, made⟩
  | call hi ht hc =>
    refine ⟨c, idle, ?_, gone, made⟩
    rw [lent, lent_setCaller (Caller.lent_call ht hc)]
  | @reuse t r con rest ht hq =>
    rw [hq, ← Multiset.cons_coe] at idle
    refine ⟨c.lend idle, rfl, ?_, gone, ?_⟩
    · exact (congrArg _ lent).trans (lent_some ht con).symm
    · rw [Custody.all_lend, made]
      rfl
  | @replace t con rest k ht hq fresh =>
    rw [hq, ← Multiset.cons_coe] at idle
    have fresh : k ∉ (c.retire idle).all := by
      rw [Custody.all_retire]
      exact h.fresh fresh
    refine ⟨(c.retire idle).supply k fresh, rfl, ?_, ?_, ?_⟩
    · exact (congrArg _ lent).trans (lent_some ht k).symm
    · exact (congrArg _ gone).trans (coe_snoc _ _)
    · rw [Custody.all_supply, Custody.all_retire, made]
      exact coe_snoc _ _
  | @discard t r con rest ht hq =>
    rw [hq, ← Multiset.cons_coe] at idle
    refine ⟨c.retire idle, rfl, ?_, ?_, ?_⟩
    · exact lent.trans (lent_none ht).symm
    · exact (congrArg _ gone).trans (coe_snoc _ _)
    · rw [Custody.all_retire, made]
      rfl
  | @create t closed k ht hq room fresh =>
    refine ⟨c.supply k (h.fresh fresh), idle, ?_, gone, ?_⟩
    · exact (congrArg _ lent).trans (lent_some ht k).symm
    · rw [Custody.all_supply, made]
      exact coe_snoc _ _
  | fail ht hq => exact ⟨c, idle, lent.trans (lent_none ht).symm, gone, made⟩
  | @release t closed r conn ht =>
    have back := lent_released ht
    cases conn with
    | none => exact ⟨c, idle, lent.trans (back.symm.trans (add_zero _)), gone, made⟩
    | some k =>
      have out : c.lent = k ::ₘ (s.answer t .released).lent := by
        rw [lent, ← back, add_comm]
        exact Multiset.singleton_add k _
      refine ⟨c.giveBack out, ?_, rfl, gone, ?_⟩
      · exact (congrArg _ idle).trans (coe_snoc _ _)
      · rw [Custody.all_giveBack, made]
        rfl
  | ret ht =>
    refine ⟨c, idle, ?_, gone, made⟩
    rw [lent, lent_setCaller (Caller.lent_back ht)]

theorem shows_of_reach {maxSize : Int} (h : Reach step (State.new maxSize) s) :
    ∃ c, Shows s c := by
  refine h.invariant (I := fun s => ∃ c, Shows s c) ⟨_, shows_new maxSize⟩ ?_
  rintro u a u' - ⟨c, hc⟩ - hs
  exact hc.step hs

structure Apart (s : State ι K) : Prop where
  idle : s.connList.Nodup
  lent : s.lent.Nodup
  not_idle : ∀ t, ∀ k ∈ s.lentTo t, k ∉ s.connList
  one : ∀ t u k, k ∈ s.lentTo t → k ∈ s.lentTo u → t = u
  gone : ∀ k ∈ s.deleted, k ∉ s.connList ∧ ∀ t, k ∉ s.lentTo t

theorem apart_of_reach {maxSize : Int} (h : Reach step (State.new maxSize) s) : Apart s := by
  obtain ⟨c, hc⟩ := shows_of_reach h
  have lent_of : ∀ {t k}, k ∈ s.lentTo t → k ∈ s.lent := by
    intro t k hk
    exact Multiset.mem_of_le (share_le_total t) hk
  refine ⟨?_, ?_, ?_, ?_, ?_⟩
  · exact Multiset.coe_nodup.mp (hc.idle ▸ c.idle_nodup)
  · exact hc.lent ▸ c.lent_nodup
  · intro t k hk
    have apart := c.not_idle_of_lent (hc.lent ▸ lent_of hk)
    rwa [hc.idle] at apart
  · intro t u k ht hu
    by_contra apart
    have both := Multiset.nodup_of_le (add_le_total apart) (hc.lent ▸ c.lent_nodup)
    exact Multiset.disjoint_left.mp (Multiset.nodup_add.mp both).2.2 ht hu
  · intro k hk
    have gone : k ∈ c.gone := hc.gone ▸ hk
    obtain ⟨idle, lent⟩ := c.not_out_of_gone gone
    rw [hc.idle] at idle
    rw [hc.lent] at lent
    exact ⟨idle, fun t ht => lent (lent_of ht)⟩

end Leano.ConnPool
