import Mathlib.Data.Finset.Card
import Mathlib.Data.Finset.Range
import Mathlib.Data.List.Nodup

/-! Objects that are made and freed. An object is the number of its making; none is freed that was
not made, and none twice: freeing anything else is undefined. -/

namespace Leano.Lib

structure Heap where
  made : Nat
  freed : List Nat
  old : ∀ k ∈ freed, k < made
  once : freed.Nodup

namespace Heap

def empty : Heap := ⟨0, [], nofun, .nil⟩

def Live (h : Heap) (k : Nat) : Prop := k < h.made ∧ k ∉ h.freed

instance (h : Heap) (k : Nat) : Decidable (h.Live k) := inferInstanceAs (Decidable (_ ∧ _))

def make (h : Heap) : Heap where
  made := h.made + 1
  freed := h.freed
  old := fun k hk => (h.old k hk).trans (Nat.lt_succ_self _)
  once := h.once

def free (h : Heap) (k : Nat) : Option Heap :=
  if live : h.Live k then
    some {
      made := h.made
      freed := k :: h.freed
      old := List.forall_mem_cons.mpr ⟨live.1, h.old⟩
      once := List.nodup_cons.mpr ⟨live.2, h.once⟩ }
  else none

def Clean (h : Heap) : Prop := ∀ k < h.made, k ∈ h.freed

variable {h h' : Heap} {k j : Nat}

theorem live_make : h.make.Live h.made :=
  ⟨Nat.lt_succ_self _, fun freed => Nat.lt_irrefl _ (h.old _ freed)⟩

theorem Live.make (live : h.Live k) : h.make.Live k := ⟨live.1.trans (Nat.lt_succ_self _), live.2⟩

theorem Live.ne_made (live : h.Live k) : k ≠ h.made := Nat.ne_of_lt live.1

theorem free_cases (hf : h.free k = some h') :
    h.Live k ∧ h'.made = h.made ∧ h'.freed = k :: h.freed := by
  unfold free at hf
  split at hf
  case isTrue live => cases hf; exact ⟨live, rfl, rfl⟩
  case isFalse => cases hf

theorem free_of_live (live : h.Live k) :
    ∃ h', h.free k = some h' ∧ h'.made = h.made ∧ h'.freed = k :: h.freed :=
  ⟨_, dif_pos live, rfl, rfl⟩

theorem free_of_not_live (dead : ¬ h.Live k) : h.free k = none := dif_neg dead

theorem Live.free (live : h.Live j) (hf : h.free k = some h') (other : j ≠ k) : h'.Live j := by
  obtain ⟨-, made, freed⟩ := free_cases hf
  refine ⟨made ▸ live.1, ?_⟩
  rw [freed]
  exact fun freed => (List.mem_cons.mp freed).elim other live.2

theorem clean_iff_count : h.Clean ↔ ∀ k < h.made, h.freed.count k = 1 := by
  constructor
  · intro clean k hk
    exact List.count_eq_one_of_mem h.once (clean k hk)
  · intro count k hk
    exact List.count_pos_iff.mp (count k hk ▸ Nat.one_pos)

theorem clean_iff : h.Clean ↔ h.freed.length = h.made := by
  have within : h.freed.toFinset ⊆ Finset.range h.made := by
    intro k hk
    exact Finset.mem_range.mpr (h.old k (List.mem_toFinset.mp hk))
  have card : h.freed.toFinset.card = h.freed.length := List.toFinset_card_of_nodup h.once
  constructor
  · intro clean
    have all : Finset.range h.made ⊆ h.freed.toFinset := by
      intro k hk
      exact List.mem_toFinset.mpr (clean k (Finset.mem_range.mp hk))
    rw [← card, Finset.Subset.antisymm within all, Finset.card_range]
  · intro length k hk
    have all := Finset.eq_of_subset_of_card_le within (by rw [card, length, Finset.card_range])
    exact List.mem_toFinset.mp (all ▸ Finset.mem_range.mpr hk)

end Heap

end Leano.Lib
