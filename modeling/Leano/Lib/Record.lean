import Mathlib.Data.List.TakeWhile

/-! A record whose fields are written one after another with what is read for them. A read that
throws leaves the record as far as it has got. -/

universe u v

namespace Leano.Lib

structure Slot (σ : Type u) (α : Type v) where
  get : σ → α
  set : α → σ → σ
  get_set : ∀ a s, get (set a s) = a
  set_get : ∀ s, set (get s) s = s

structure Write (σ : Type u) where
  α : Type v
  field : Slot σ α
  value : Option α

variable {σ : Type u}

namespace Write

def Readable (w : Write σ) : Prop := w.value.isSome

instance (w : Write σ) : Decidable w.Readable := inferInstanceAs (Decidable (w.value.isSome = true))

def Holds (s : σ) (w : Write σ) : Prop := w.value = some (w.field.get s)

def Apart (w w' : Write σ) : Prop := ∀ a s, w.field.get (w'.field.set a s) = w.field.get s

end Write

def writeAll : List (Write σ) → σ → Bool × σ
  | [], s => (true, s)
  | w :: ws, s =>
    match w.value with
    | none => (false, s)
    | some a => writeAll ws (w.field.set a s)

variable {w : Write σ} {ws : List (Write σ)} {s : σ}

theorem writeAll_none (h : w.value = none) : writeAll (w :: ws) s = (false, s) := by
  rw [writeAll, h]

theorem writeAll_some {a : w.α} (h : w.value = some a) :
    writeAll (w :: ws) s = writeAll ws (w.field.set a s) := by
  rw [writeAll, h]

theorem writeAll_fst : (writeAll ws s).1 = true ↔ ∀ w ∈ ws, w.Readable := by
  induction ws generalizing s with
  | nil => exact iff_of_true rfl fun _ hw => absurd hw List.not_mem_nil
  | cons w ws ih =>
    rw [List.forall_mem_cons, Write.Readable]
    cases h : w.value with
    | none => simp [writeAll_none h]
    | some a => simp [writeAll_some h, ih]

theorem get_writeAll (apart : ∀ w' ∈ ws, w.Apart w') :
    w.field.get (writeAll ws s).2 = w.field.get s := by
  induction ws generalizing s with
  | nil => rfl
  | cons w' ws ih =>
    obtain ⟨first, rest⟩ := List.forall_mem_cons.mp apart
    cases h : w'.value with
    | none => rw [writeAll_none h]
    | some a => rw [writeAll_some h, ih rest, first]

theorem get_writeAll_append {pre post : List (Write σ)} (before : ∀ w' ∈ pre, w.Apart w')
    (after : ∀ w' ∈ post, w.Apart w') : w.field.get (writeAll (pre ++ w :: post) s).2 =
      if ∀ w' ∈ pre, w'.Readable then w.value.getD (w.field.get s) else w.field.get s := by
  induction pre generalizing s with
  | nil =>
    rw [if_pos fun _ hw => absurd hw List.not_mem_nil, List.nil_append]
    cases h : w.value with
    | none => rw [writeAll_none h]; rfl
    | some a => rw [writeAll_some h, get_writeAll after, w.field.get_set]; rfl
  | cons w' pre ih =>
    obtain ⟨first, rest⟩ := List.forall_mem_cons.mp before
    rw [List.cons_append]
    cases h : w'.value with
    | none =>
      have stop : ¬ w'.Readable := by simp [Write.Readable, h]
      rw [writeAll_none h, if_neg fun all => stop (all w' List.mem_cons_self)]
    | some a =>
      have go : w'.Readable := by simp [Write.Readable, h]
      rw [writeAll_some h, ih rest, first]
      simp only [List.forall_mem_cons, go, true_and]

theorem writeAll_snd (apart : ws.Pairwise Write.Apart) :
    (writeAll ws s).2 = s ↔ ∀ w ∈ ws.takeWhile fun w => w.Readable, w.Holds s := by
  induction ws generalizing s with
  | nil => exact iff_of_true rfl fun _ hw => absurd hw List.not_mem_nil
  | cons w ws ih =>
    obtain ⟨first, rest⟩ := List.pairwise_cons.mp apart
    cases h : w.value with
    | none =>
      have stop : ¬ w.Readable := by simp [Write.Readable, h]
      rw [writeAll_none h, List.takeWhile_cons_of_neg (by simpa using stop)]
      exact iff_of_true rfl fun _ hw => absurd hw List.not_mem_nil
    | some a =>
      have go : w.Readable := by simp [Write.Readable, h]
      rw [writeAll_some h, List.takeWhile_cons_of_pos (by simpa using go), List.forall_mem_cons]
      constructor
      · intro same
        have held : a = w.field.get s := by
          rw [← same, get_writeAll first, w.field.get_set]
        subst held
        rw [w.field.set_get] at same
        exact ⟨h, (ih rest).mp same⟩
      · rintro ⟨now, later⟩
        cases h.symm.trans now
        rw [w.field.set_get]
        exact (ih rest).mpr later

/-- All or nothing: either every read goes well, or the record holds what has been read before one
throws. -/
theorem writeAll_atomic (apart : ws.Pairwise Write.Apart) :
    ((writeAll ws s).1 = false → (writeAll ws s).2 = s) ↔
      (∀ w ∈ ws, w.Readable) ∨ ∀ w ∈ ws.takeWhile fun w => w.Readable, w.Holds s := by
  rw [← Bool.not_eq_true, writeAll_fst, writeAll_snd apart, ← or_iff_not_imp_left]

end Leano.Lib
