import Leano.Epoll.Parse

namespace Leano.Epoll

open Leano.Lib

def completeLines (s : List UInt8) : List (List UInt8) := (s.splitOn 10).dropLast

def openLine (s : List UInt8) : List UInt8 := (s.splitOn 10).getLast (List.splitOn_ne_nil _ _)

def headLines (s : List UInt8) : List (List UInt8) := (completeLines s).takeWhile (·.length ≠ 1)

def Ended (s : List UInt8) : Prop := ∃ l ∈ completeLines s, l.length = 1

instance (s : List UInt8) : Decidable (Ended s) :=
  inferInstanceAs (Decidable (∃ l ∈ completeLines s, l.length = 1))

variable {s l r : List UInt8}

section lines

theorem completeLines_line (h : 10 ∉ l) : completeLines (l ++ 10 :: s) = l :: completeLines s := by
  rw [completeLines, List.splitOn_append_cons_self_of_not_mem h,
    List.dropLast_cons_of_ne_nil (List.splitOn_ne_nil _ _)]
  rfl

theorem completeLines_open (h : 10 ∉ s) : completeLines s = [] := by
  rw [completeLines, List.splitOn_eq_singleton h]
  rfl

theorem openLine_line (h : 10 ∉ l) : openLine (l ++ 10 :: s) = openLine s := by
  simp only [openLine, List.splitOn_append_cons_self_of_not_mem h,
    List.getLast_cons (List.splitOn_ne_nil _ _)]

theorem openLine_open (h : 10 ∉ s) : openLine s = s := by
  simp only [openLine, List.splitOn_eq_singleton h, List.getLast_singleton]

theorem headLines_line (h : 10 ∉ l) :
    headLines (l ++ 10 :: s) = if l.length = 1 then [] else l :: headLines s := by
  rw [headLines, completeLines_line h, List.takeWhile_cons]
  by_cases one : l.length = 1 <;> simp [one, headLines]

theorem headLines_open (h : 10 ∉ s) : headLines s = [] := by
  rw [headLines, completeLines_open h]
  rfl

theorem ended_line (h : 10 ∉ l) : Ended (l ++ 10 :: s) ↔ l.length = 1 ∨ Ended s := by
  simp only [Ended, completeLines_line h, List.exists_mem_cons_iff]

theorem not_ended_open (h : 10 ∉ s) : ¬ Ended s := by
  simp [Ended, completeLines_open h]

theorem lines_induction {motive : List UInt8 → Prop} (last : ∀ s, 10 ∉ s → motive s)
    (line : ∀ l s, 10 ∉ l → motive s → motive (l ++ 10 :: s)) (s : List UInt8) : motive s := by
  induction size : s.length using Nat.strongRecOn generalizing s with
  | ind n ih =>
    by_cases mem : 10 ∈ s
    · obtain ⟨l, t, rfl, hl⟩ := List.eq_append_cons_of_mem mem
      rw [List.length_append, List.length_cons] at size
      exact line l t hl (ih t.length (by omega) t rfl)
    · exact last s mem

theorem openLine_length_le (s : List UInt8) : (openLine s).length ≤ s.length := by
  induction s using lines_induction with
  | last s h => rw [openLine_open h]
  | line l s h ih =>
    rw [openLine_line h, List.length_append, List.length_cons]
    omega

end lines

theorem named_cases {hit : Dest × Nat} (h : named l = some hit) :
    startsWith hostName l = true ∧ hit = (.host, 6) ∨
    startsWith acceptName l = true ∧ hit = (.accept, 8) ∨
    startsWith connectionName l = true ∧ hit = (.conn, 12) := by
  unfold named at h
  split at h
  case isTrue host => exact .inl ⟨host, (Option.some.inj h).symm⟩
  case isFalse =>
    split at h
    case isTrue accept => exact .inr (.inl ⟨accept, (Option.some.inj h).symm⟩)
    case isFalse =>
      split at h
      case isTrue conn => exact .inr (.inr ⟨conn, (Option.some.inj h).symm⟩)
      case isFalse => cases h

theorem clean_newline (nul : 0 ∉ l) (h : 10 ∉ l) : Clean newline l := by
  rintro b hb (rfl | mem)
  · exact nul hb
  · exact h (List.mem_singleton.mp mem ▸ hb)

theorem Clean.newline (h : Clean newline l) : 10 ∉ l :=
  fun mem => h 10 mem (.inr (List.mem_singleton.mpr rfl))

theorem splits_newline (nul : 0 ∉ l) (h : 10 ∉ l) (r : List UInt8) :
    Splits newline (l ++ 10 :: r) l r :=
  ⟨10, List.mem_singleton.mpr rfl, by decide, rfl, clean_newline nul h⟩

theorem splits_text {w tail : List UInt8} (hw : w = (l ++ 10 :: s) ++ 0 :: tail)
    (nul : 0 ∉ l ++ 10 :: s) (h : 10 ∉ l) : Splits newline w l (s ++ 0 :: tail) ∧ 0 ∉ s := by
  obtain ⟨nulLine, nulRest⟩ := not_or.mp (mt List.mem_append.mpr nul)
  refine ⟨?_, fun mem => nulRest (List.mem_cons_of_mem _ mem)⟩
  rw [hw, List.append_assoc]
  exact splits_newline nulLine h _

namespace Parse

variable {p q : Parse} {e : Int} {x : Bool}

def valueCopy (p : Parse) (len : Int) (hit : Dest × Nat) : Copy :=
  ⟨hit.1, p.conn.queryStartIndex + hit.2, len - hit.2⟩

theorem step_last (hp : p.pc = .head) (h : Splits newline p.conn.rest l r) (one : l.length = 1) :
    step e p x = some (p.jump (p.conn.queryStartIndex + 2) .body) := by
  simp only [step, hp, head, h.found, one, if_true]

theorem header_eq {b : UInt8} {len : Int} {n : Nat} {pc : ParsePc} (hb : b = 0 ∨ b = 10)
    (hr : p.conn.rest = l ++ b :: r) : p.header x len n pc =
      match named l with
      | none => p.jump n pc
      | some hit => p.copy x (p.valueCopy len hit) n pc := by
  rw [header, hr, headerDest_eq hb]
  cases named l <;> rfl

theorem step_line (hp : p.pc = .head) (h : Splits newline p.conn.rest l r) (ne : l.length ≠ 1) :
    step e p x = some (match named l with
      | none => (p.worked l).jump (p.conn.queryStartIndex + (l.length + 1)) .head
      | some hit => (p.worked l).copy x (p.valueCopy l.length hit)
          (p.conn.queryStartIndex + (l.length + 1)) .head) := by
  have taken : p.conn.rest.take l.length = l := by rw [h.eq_newline, List.take_left]
  have hr : (p.worked l).conn.rest = l ++ 10 :: r := h.eq_newline
  simp only [step, hp, head, h.found, ne, if_false, taken]
  rw [header_eq (.inr rfl) hr]
  rfl

theorem step_open (hp : p.pc = .head) (nul : 0 ∉ l) (h : 10 ∉ l) (hr : p.conn.rest = l ++ 0 :: r)
    (ne : e ≠ p.conn.queryStartIndex + 2) :
    step e p x = some (match named l with
      | none => (p.worked none).jump e.toNat (p.landing e)
      | some hit => (p.worked none).copy x (p.valueCopy (e - (p.conn.queryStartIndex + 1)) hit)
          e.toNat (p.landing e)) := by
  have found : strpbrk newline p.conn.rest = .ok none := by
    rw [hr, strpbrk_of_ends (clean_newline nul h) (.inl rfl), if_pos rfl]
  have long : e - (p.conn.queryStartIndex + 1) ≠ 1 := by omega
  have hr : (p.worked none).conn.rest = l ++ 0 :: r := hr
  simp only [step, hp, head, found, long, if_false]
  rw [header_eq (.inl rfl) hr]
  rfl

theorem step_open_one (hp : p.pc = .head) (nul : 0 ∉ l) (h : 10 ∉ l)
    (hr : p.conn.rest = l ++ 0 :: r) (one : e = p.conn.queryStartIndex + 2) :
    step e p x = some ((p.worked none).jump e.toNat .body) := by
  have found : strpbrk newline p.conn.rest = .ok none := by
    rw [hr, strpbrk_of_ends (clean_newline nul h) (.inl rfl), if_pos rfl]
  have long : e - (p.conn.queryStartIndex + 1) = 1 := by omega
  simp only [step, hp, head, found, long, if_true]

def afterLine (p : Parse) (l : List UInt8) : Parse :=
  match named l with
  | none => (p.worked l).jump (p.conn.queryStartIndex + (l.length + 1)) .head
  | some hit =>
    (p.worked l).copied (p.valueCopy l.length hit) (p.conn.queryStartIndex + (l.length + 1)) .head

section copied

variable {hit : Dest × Nat}

theorem valueCopy_inBounds : (p.valueCopy l.length hit).InBounds ↔
    hit.2 ≤ l.length ∧ l.length ≤ hit.2 + hit.1.size := by
  simp only [valueCopy, Copy.InBounds]
  omega

theorem valueCopy_returns (h : Splits newline p.conn.rest l r) (low : hit.2 ≤ l.length)
    (high : l.length ≤ hit.2 + hit.1.room ∨ x = true) : (p.valueCopy l.length hit).Returns x
      (p.conn.querybuf.drop (p.valueCopy l.length hit).start) := by
  have length := h.length
  rw [WebConnection.rest, List.length_drop] at length
  simp only [valueCopy, Copy.Returns, List.length_drop]
  refine ⟨by omega, high.imp_left fun high => by omega, .inl (by omega)⟩

theorem step_line_of_returns (hp : p.pc = .head) (h : Splits newline p.conn.rest l r)
    (ne : l.length ≠ 1) (returns : ∀ hit, named l = some hit → hit.2 ≤ l.length ∧
      (l.length ≤ hit.2 + hit.1.room ∨ x = true)) :
    step e p x = some (p.afterLine l) := by
  rw [step_line hp h ne, afterLine]
  cases hit : named l with
  | none => rfl
  | some hit =>
    obtain ⟨low, high⟩ := returns _ hit
    exact congrArg some (copy_of_returns (valueCopy_returns h low high))

end copied

@[simp] theorem afterLine_pc : (p.afterLine l).pc = .head := by
  unfold afterLine
  split <;> rfl

@[simp] theorem afterLine_lines : (p.afterLine l).lines = p.lines ++ [some l] := by
  unfold afterLine
  split <;> rfl

@[simp] theorem afterLine_copies :
    (p.afterLine l).copies = p.copies ++ (named l).toList.map (p.valueCopy l.length) := by
  unfold afterLine
  split
  case h_1 none => simp [none, jump, worked]
  case h_2 hit some => simp [some, copied, jump, written, logged, worked]

@[simp] theorem afterLine_start :
    (p.afterLine l).conn.queryStartIndex = p.conn.queryStartIndex + (l.length + 1) := by
  unfold afterLine
  split <;> rfl

@[simp] theorem afterLine_end : (p.afterLine l).conn.queryEndIndex = p.conn.queryEndIndex := by
  unfold afterLine
  split <;> rfl

@[simp] theorem afterLine_buf : (p.afterLine l).conn.querybuf = p.conn.querybuf := by
  unfold afterLine
  split <;> rfl

theorem afterLine_rest (h : Splits newline p.conn.rest l r) : (p.afterLine l).conn.rest = r := by
  have behind := h.behind
  rw [WebConnection.rest, List.drop_drop] at behind
  unfold afterLine
  split <;> exact behind

end Parse

end Leano.Epoll
