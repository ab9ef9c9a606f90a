import Mathlib.Data.List.Basic
import Mathlib.Logic.Function.Basic

/-! The string functions of C on memory that ends. A pointer is the list of the bytes from where it
points to the end of its allocation; reading past them is a fault, and so is writing more than
the destination holds. -/

universe u v

namespace Leano.Lib

inductive Fault where
  | overrun
  | overflow
  | null
  deriving DecidableEq

@[simp] theorem ok_bind {ε : Type u} {α β : Type v} (a : α) (f : α → Except ε β) :
    (Except.ok a >>= f) = f a := rfl

@[simp] theorem error_bind {ε : Type u} {α β : Type v} (e : ε) (f : α → Except ε β) :
    (Except.error e >>= f) = .error e := rfl

theorem bind_eq_ok {ε : Type u} {α β : Type v} {x : Except ε α} {f : α → Except ε β} {b : β}
    (h : (x >>= f) = .ok b) : ∃ a, x = .ok a ∧ f a = .ok b := by
  cases x with
  | error e => cases h
  | ok a => exact ⟨a, rfl, h⟩

abbrev Field (n : Nat) := Fin n → UInt8

def Ends (accept : List UInt8) (b : UInt8) : Prop := b = 0 ∨ b ∈ accept

instance (accept : List UInt8) (b : UInt8) : Decidable (Ends accept b) :=
  inferInstanceAs (Decidable (b = 0 ∨ b ∈ accept))

def beforeNul (s : List UInt8) : List UInt8 := s.takeWhile (· ≠ 0)

def cstr {n : Nat} (f : Field n) : List UInt8 := beforeNul (List.ofFn f)

def strlen : List UInt8 → Option Nat
  | [] => none
  | b :: s => if b = 0 then some 0 else (strlen s).map (· + 1)

def strpbrk (accept : List UInt8) : List UInt8 → Except Fault (Option Nat)
  | [] => .error .overrun
  | b :: s =>
    if b = 0 then .ok none
    else if b ∈ accept then .ok (some 0)
    else (strpbrk accept s).map (Option.map (· + 1))

def toLower (b : UInt8) : UInt8 := if 65 ≤ b ∧ b ≤ 90 then b + 32 else b

def strncaseeq : (lit s : List UInt8) → Except Fault Bool
  | [], _ => .ok true
  | _ :: _, [] => .error .overrun
  | c :: lit, b :: s => if toLower b = toLower c then strncaseeq lit s else .ok false

def startsWith (lit s : List UInt8) : Bool := (lit.map toLower).isPrefixOf (s.map toLower)

section strlen

theorem strlen_eq (s : List UInt8) :
    strlen s = if 0 ∈ s then some (beforeNul s).length else none := by
  induction s with
  | nil => rfl
  | cons b s ih =>
    rw [strlen]
    split
    case isTrue hb => simp [hb, beforeNul]
    case isFalse hb =>
      rw [ih]
      have hb' : 0 ≠ b := Ne.symm hb
      by_cases mem : 0 ∈ s <;> simp [mem, hb, hb', beforeNul]

theorem beforeNul_append_of_mem {s : List UInt8} (h : 0 ∈ s) (t : List UInt8) :
    beforeNul (s ++ t) = beforeNul s := by
  induction s with
  | nil => cases h
  | cons b s ih =>
    by_cases hb : b = 0
    · simp [beforeNul, hb]
    · have h : 0 ∈ s := (List.mem_cons.mp h).resolve_left (Ne.symm hb)
      simpa [beforeNul, hb] using ih h

theorem beforeNul_append_of_not_mem {s : List UInt8} (h : 0 ∉ s) (t : List UInt8) :
    beforeNul (s ++ t) = s ++ beforeNul t := by
  apply List.takeWhile_append_of_pos
  intro b hb
  simpa using fun hz : b = 0 => h (hz ▸ hb)

theorem beforeNul_of_not_mem {s : List UInt8} (h : 0 ∉ s) : beforeNul s = s := by
  have whole := beforeNul_append_of_not_mem h []
  rwa [List.append_nil, show beforeNul [] = [] from rfl, List.append_nil] at whole

theorem not_mem_beforeNul (s : List UInt8) : 0 ∉ beforeNul s := by
  induction s with
  | nil => exact List.not_mem_nil
  | cons b s ih =>
    by_cases hb : b = 0
    · simp [beforeNul, hb]
    · simpa [beforeNul, hb, Ne.symm hb] using ih

theorem beforeNul_nul {s : List UInt8} (h : 0 ∉ s) (t : List UInt8) :
    beforeNul (s ++ 0 :: t) = s := by
  rw [beforeNul_append_of_not_mem h]
  simp [beforeNul]

theorem beforeNul_length_lt {s : List UInt8} (h : 0 ∈ s) : (beforeNul s).length < s.length := by
  induction s with
  | nil => cases h
  | cons b s ih =>
    by_cases hb : b = 0
    · simp [beforeNul, hb]
    · have h : 0 ∈ s := (List.mem_cons.mp h).resolve_left (Ne.symm hb)
      simpa [beforeNul, hb] using ih h

end strlen

section cstr

variable {k : Nat} {f : Field k} {w : List UInt8}

theorem prefix_cstr (starts : w <+: List.ofFn f) (nul : 0 ∉ w) : w <+: cstr f := by
  obtain ⟨t, ht⟩ := starts
  rw [cstr, ← ht, beforeNul_append_of_not_mem nul]
  exact List.prefix_append _ _

theorem cstr_eq_iff (starts : w <+: List.ofFn f) (nul : 0 ∉ w) (fits : w.length < k) :
    cstr f = w ↔ f ⟨w.length, fits⟩ = 0 := by
  obtain ⟨t, ht⟩ := starts
  have next : t.head? = some (f ⟨w.length, fits⟩) := by
    have byte : (w ++ t)[w.length]? = some (f ⟨w.length, fits⟩) := by
      rw [ht, List.getElem?_ofFn, dif_pos fits]
    rwa [List.getElem?_append_right (Nat.le_refl _), Nat.sub_self, ← List.head?_eq_getElem?] at byte
  rw [cstr, ← ht, beforeNul_append_of_not_mem nul, List.append_right_eq_self]
  cases t with
  | nil => cases next
  | cons b t =>
    obtain rfl := Option.some.inj next
    simp [beforeNul, List.takeWhile_cons]

end cstr

section strpbrk

variable {accept s t : List UInt8}

theorem strpbrk_append (h : ∀ b ∈ s, ¬ Ends accept b) :
    strpbrk accept (s ++ t) = (strpbrk accept t).map (Option.map (s.length + ·)) := by
  induction s with
  | nil =>
    rw [List.nil_append]
    cases strpbrk accept t with
    | error => rfl
    | ok r => cases r <;> simp [Except.map]
  | cons b s ih =>
    obtain ⟨head, tail⟩ := List.forall_mem_cons.mp h
    simp only [Ends, not_or] at head
    rw [List.cons_append, strpbrk, if_neg head.1, if_neg head.2, ih tail]
    cases strpbrk accept t with
    | error => rfl
    | ok r => cases r <;> simp [Except.map, Nat.add_right_comm]

theorem strpbrk_of_ends {b : UInt8} (h : ∀ c ∈ s, ¬ Ends accept c) (hb : Ends accept b) :
    strpbrk accept (s ++ b :: t) = .ok (if b = 0 then none else some s.length) := by
  rw [strpbrk_append h, strpbrk]
  split
  · rfl
  · rename_i hne
    rw [if_pos (hb.resolve_left hne)]
    simp [Except.map]

theorem strpbrk_cases (accept s : List UInt8) :
    (∀ b ∈ s, ¬ Ends accept b) ∨
      ∃ s₁ b s₂, s = s₁ ++ b :: s₂ ∧ (∀ c ∈ s₁, ¬ Ends accept c) ∧ Ends accept b := by
  induction s with
  | nil => exact .inl (by simp)
  | cons b s ih =>
    by_cases hb : Ends accept b
    · exact .inr ⟨[], b, s, rfl, by simp, hb⟩
    · rcases ih with all | ⟨s₁, c, s₂, rfl, hs, hc⟩
      · exact .inl (List.forall_mem_cons.mpr ⟨hb, all⟩)
      · exact .inr ⟨b :: s₁, c, s₂, rfl, List.forall_mem_cons.mpr ⟨hb, hs⟩, hc⟩

theorem strpbrk_eq (h : 0 ∈ s) :
    strpbrk accept s = .ok ((beforeNul s).findIdx? (· ∈ accept)) := by
  induction s with
  | nil => cases h
  | cons b s ih =>
    rw [strpbrk]
    by_cases hb : b = 0
    · simp [hb, beforeNul]
    · have h : 0 ∈ s := (List.mem_cons.mp h).resolve_left (Ne.symm hb)
      have head : beforeNul (b :: s) = b :: beforeNul s := by simp [beforeNul, hb]
      rw [if_neg hb, head, List.findIdx?_cons, ih h]
      by_cases mem : b ∈ accept <;> simp [mem, Except.map]

end strpbrk

section beforeNul

variable {s : List UInt8}

theorem getD_takeWhile_append {p : UInt8 → Bool} {i : Nat} (h : i < s.length) (t : List UInt8) :
    ((s ++ t).takeWhile p).getD i 0 = (s.takeWhile p).getD i 0 := by
  induction s generalizing i with
  | nil => cases h
  | cons b s ih =>
    cases hb : p b with
    | false => simp [hb]
    | true =>
      cases i with
      | zero => simp [hb]
      | succ i => simpa [hb] using ih (Nat.lt_of_succ_lt_succ h)

end beforeNul

section strncaseeq

theorem strncaseeq_eq {lit s : List UInt8} {e : UInt8} (h : toLower e ∉ lit.map toLower)
    (t : List UInt8) : strncaseeq lit (s ++ e :: t) = .ok (startsWith lit s) := by
  induction lit generalizing s with
  | nil => rfl
  | cons c lit ih =>
    obtain ⟨head, tail⟩ := not_or.mp (List.mem_cons.not.mp h)
    cases s with
    | nil =>
      rw [List.nil_append, strncaseeq, if_neg head]
      rfl
    | cons b s =>
      rw [List.cons_append, strncaseeq, ih tail]
      by_cases same : toLower b = toLower c
      · simp [same, startsWith]
      · simp [same, Ne.symm same, startsWith, List.isPrefixOf]

end strncaseeq

end Leano.Lib
