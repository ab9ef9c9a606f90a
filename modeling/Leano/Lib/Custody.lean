import Mathlib.Data.Multiset.AddSub
import Mathlib.Data.Multiset.ZeroCons
import Mathlib.Data.Multiset.Dedup

/-! Things in custody: each thing made so far is in stock, lent out or gone, and nothing is in two
places. The law is a field. -/

universe u

namespace Leano.Lib

structure Custody (K : Type u) where
  idle : Multiset K
  lent : Multiset K
  gone : Multiset K
  once : (idle + lent + gone).Nodup

namespace Custody

variable {K : Type u}

def all (c : Custody K) : Multiset K := c.idle + c.lent + c.gone

def empty : Custody K := ⟨0, 0, 0, by simp⟩

def make (c : Custody K) (k : K) (fresh : k ∉ c.all) : Custody K where
  idle := k ::ₘ c.idle
  lent := c.lent
  gone := c.gone
  once := by
    rw [Multiset.cons_add, Multiset.cons_add]
    exact Multiset.nodup_cons.mpr ⟨fresh, c.once⟩

def lend (c : Custody K) {k : K} {rest : Multiset K} (h : c.idle = k ::ₘ rest) : Custody K where
  idle := rest
  lent := k ::ₘ c.lent
  gone := c.gone
  once := by
    have once := c.once
    rwa [h, Multiset.cons_add, ← Multiset.add_cons] at once

def giveBack (c : Custody K) {k : K} {rest : Multiset K} (h : c.lent = k ::ₘ rest) :
    Custody K where
  idle := k ::ₘ c.idle
  lent := rest
  gone := c.gone
  once := by
    have once := c.once
    rwa [h, Multiset.add_cons, ← Multiset.cons_add] at once

def discard (c : Custody K) {k : K} {rest : Multiset K} (h : c.lent = k ::ₘ rest) :
    Custody K where
  idle := c.idle
  lent := rest
  gone := k ::ₘ c.gone
  once := by
    have once := c.once
    rwa [h, Multiset.add_cons, Multiset.cons_add, ← Multiset.add_cons] at once

def retire (c : Custody K) {k : K} {rest : Multiset K} (h : c.idle = k ::ₘ rest) : Custody K :=
  (c.lend h).discard rfl

def supply (c : Custody K) (k : K) (fresh : k ∉ c.all) : Custody K :=
  (c.make k fresh).lend rfl

section

variable {c : Custody K} {k : K} {rest : Multiset K}

@[simp] theorem all_make (fresh : k ∉ c.all) : (c.make k fresh).all = k ::ₘ c.all := by
  simp [all, make]

@[simp] theorem all_lend (h : c.idle = k ::ₘ rest) : (c.lend h).all = c.all := by
  simp [all, lend, h]

@[simp] theorem all_giveBack (h : c.lent = k ::ₘ rest) : (c.giveBack h).all = c.all := by
  simp [all, giveBack, h]

@[simp] theorem all_discard (h : c.lent = k ::ₘ rest) : (c.discard h).all = c.all := by
  simp [all, discard, h]

@[simp] theorem all_retire (h : c.idle = k ::ₘ rest) : (c.retire h).all = c.all :=
  (all_discard _).trans (all_lend h)

@[simp] theorem all_supply (fresh : k ∉ c.all) : (c.supply k fresh).all = k ::ₘ c.all :=
  (all_lend _).trans (all_make fresh)

theorem idle_nodup (c : Custody K) : c.idle.Nodup :=
  Multiset.nodup_of_le ((Multiset.le_add_right _ _).trans (Multiset.le_add_right _ _)) c.once

theorem lent_nodup (c : Custody K) : c.lent.Nodup :=
  Multiset.nodup_of_le ((Multiset.le_add_left _ _).trans (Multiset.le_add_right _ _)) c.once

theorem not_idle_of_lent (h : k ∈ c.lent) : k ∉ c.idle := by
  have apart := (Multiset.nodup_add.mp (Multiset.nodup_add.mp c.once).1).2.2
  exact fun idle => Multiset.disjoint_left.mp apart idle h

theorem not_out_of_gone (h : k ∈ c.gone) : k ∉ c.idle ∧ k ∉ c.lent := by
  have apart := (Multiset.nodup_add.mp c.once).2.2
  have away : k ∉ c.idle + c.lent := fun there => Multiset.disjoint_left.mp apart there h
  simpa using away

end

end Custody

end Leano.Lib
