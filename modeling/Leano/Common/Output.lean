import Leano.Common.Myexec

namespace Leano.Common

open Leano.Lib

variable {debug : Bool} {throws : Nat → Option Throw} {out w : Bytes} {ws : List Bytes} {s : State}

section windows

theorem window_text (text : 0 ∉ out) (h : w ∈ windows 1023 newline out) :
    w ≠ [] ∧ w.length ≤ 1023 ∧ beforeNul w = w ∧ lineOf w = w.takeWhile fun b => b ≠ newline := by
  obtain ⟨l', rest, suffix, begins⟩ := exists_begins_of_mem (by decide) h
  have whole : beforeNul w = w := by
    refine takeWhile_of_not_mem fun nul => text (suffix.subset ?_)
    rw [begins.append]
    exact List.mem_append_left _ nul
  refine ⟨begins.ne_nil, begins.length_le, whole, ?_⟩
  rw [lineOf, whole]
  have unended {seg : Bytes} (he : newline ∉ seg) : chomp seg = seg :=
    if_neg fun last => he (List.mem_of_getLast? last)
  cases begins with
  | line seg _ he => rw [takeWhile_line he, chomp, List.getLast?_concat, if_pos rfl,
      List.dropLast_concat]
  | full _ _ he => rw [takeWhile_of_not_mem he, unended he]
  | last _ he => rw [takeWhile_of_not_mem he, unended he]

theorem window_inside (text : 0 ∉ out) (h : w ∈ windows 1023 newline out) :
    Inside ((beforeNul w).length - 1) := by
  obtain ⟨ne, le, whole, -⟩ := window_text text h
  have pos := List.length_pos_iff.mpr ne
  rw [whole]
  constructor
  · omega
  · omega

theorem success_chomp {tmp : Bytes} : success <:+: chomp tmp ↔ success <:+: tmp := by
  unfold chomp
  split
  case isTrue ends =>
    conv_rhs => rw [← List.dropLast_append_getLast? newline ends]
    exact (infix_line_iff (by decide) _).symm
  case isFalse => rfl

theorem myexec_text (text : 0 ∉ out) (quiet : (myexec debug throws (some out)).1 ≠ some (-1)) :
    (myexec debug throws (some out)).2.resvec =
      (windows 1023 newline out).map (List.takeWhile fun b => b ≠ newline) ∧
    (myexec debug throws (some out)).1 =
      some (if ∃ w ∈ windows 1023 newline out, success <:+: w then 1 else 0) := by
  obtain ⟨s', hs⟩ := ok_of_leave (fun w hw => window_inside text hw) quiet
  have adds := rounds_ok hs
  rw [myexec, hs]
  constructor
  · refine adds.resvec.trans ?_
    exact List.map_congr_left fun w hw => (window_text text hw).2.2.2
  · refine congrArg some (adds.res.trans ?_)
    refine if_congr (exists_congr fun w => and_congr_right fun hw => ?_) rfl rfl
    rw [lineOf, success_chomp, (window_text text hw).2.2.1]

end windows

/-- `resvec` is the list of the lines exactly if each fits into the buffer. -/
theorem resvec_eq_lines_iff (text : 0 ∉ out)
    (quiet : (myexec debug throws (some out)).1 ≠ some (-1)) :
    (myexec debug throws (some out)).2.resvec = lines newline out ↔ Fits 1023 newline out := by
  rw [(myexec_text text quiet).1]
  exact windows_eq_lines_iff (by decide)

theorem resvec_of_two :
    (myexec false (fun _ => none) (some [97, 10, 98])).2.resvec = lines newline [97, 10, 98] :=
  (resvec_eq_lines_iff (by decide) (myexec_plain _)).mpr ⟨by decide, by decide⟩

theorem not_mem_letters {n : Nat} {b : UInt8} (ne : b ≠ 97) : b ∉ List.replicate n 97 :=
  fun h => ne (List.eq_of_mem_replicate h)

/-- A line of 1023 bytes leaves its end for another window. -/
theorem resvec_of_long :
    let line := List.replicate 1023 97
    lines newline (line ++ [newline]) = [line] ∧
      (myexec false (fun _ => none) (some (line ++ [newline]))).2.resvec = [line, []] := by
  have letters : newline ∉ List.replicate 1023 97 := not_mem_letters (by decide)
  have text : 0 ∉ List.replicate 1023 97 ++ [newline] :=
    List.not_mem_append (not_mem_letters (by decide)) (by decide)
  have first : Begins 1023 newline (List.replicate 1023 97 ++ [newline]) _ _ :=
    .full _ _ letters (by decide) List.length_replicate
  have second : Begins 1023 newline [newline] _ _ := .line [] [] List.not_mem_nil (by decide)
  constructor
  · rw [lines_line letters, lines_nil]
  · rw [(myexec_text text (myexec_plain _)).1, first.windows (by decide),
      second.windows (by decide), windows_nil]
    simp only [List.map_cons, List.map_nil, takeWhile_of_not_mem letters]
    rfl

def Said (out : Bytes) : Prop := ∃ line ∈ lines newline out, success <:+: line

def SaidWithin (out : Bytes) : Prop :=
  ∃ line ∈ lines newline out, ∃ i, success <+: line.drop i ∧ i % 1023 + 22 ≤ 1023

theorem saidWithin_iff : SaidWithin out ↔ ∃ w ∈ windows 1023 newline out, success <:+: w := by
  have some : success ≠ [] := by decide
  have within : ¬ ∃ i, success <+: ([] : Bytes).drop i ∧ i % 1023 + 22 ≤ 1023 := by
    rintro ⟨i, first, -⟩
    rw [List.drop_nil, List.prefix_nil] at first
    exact some first
  rw [SaidWithin, exists_line_iff within,
    exists_window_iff (by decide) (by rwa [List.infix_nil]) (infix_line_iff (by decide))]
  refine exists_congr fun line => and_congr_right fun _ => ?_
  exact (exists_piece_iff some).symm

theorem SaidWithin.said (h : SaidWithin out) : Said out := by
  obtain ⟨line, hl, i, first, -⟩ := h
  exact ⟨line, hl, first.isInfix.trans (List.drop_suffix i line).isInfix⟩

theorem verdict_within (text : 0 ∉ out) (quiet : (myexec debug throws (some out)).1 ≠ some (-1)) :
    (SaidWithin out → (myexec debug throws (some out)).1 = some 1) ∧
      (¬ SaidWithin out → (myexec debug throws (some out)).1 = some 0) := by
  rw [(myexec_text text quiet).2, saidWithin_iff]
  exact ⟨fun h => congrArg some (if_pos h), fun h => congrArg some (if_neg h)⟩

/-- The verdict is right exactly if the text, where it is said, is said within a window. -/
theorem verdict_iff (text : 0 ∉ out) (quiet : (myexec debug throws (some out)).1 ≠ some (-1)) :
    ((Said out → (myexec debug throws (some out)).1 = some 1) ∧
      (¬ Said out → (myexec debug throws (some out)).1 = some 0)) ↔
    (Said out → SaidWithin out) := by
  obtain ⟨one, zero⟩ := verdict_within text quiet
  constructor
  · rintro ⟨yes, -⟩ said
    by_contra cut
    cases (yes said).symm.trans (zero cut)
  · exact fun within => ⟨fun said => one (within said), fun silent => zero fun h => silent h.said⟩

theorem verdict_of_line :
    (Said (success ++ [newline]) →
      (myexec false (fun _ => none) (some (success ++ [newline]))).1 = some 1) ∧
    (¬ Said (success ++ [newline]) →
      (myexec false (fun _ => none) (some (success ++ [newline]))).1 = some 0) :=
  (verdict_iff (by decide) (myexec_plain _)).mpr fun _ =>
    ⟨success, by decide, 0, by decide, by decide⟩

/-- Behind 1010 other bytes the text is cut by the end of a window. -/
theorem success_missed :
    let out := List.replicate 1010 97 ++ success
    Said out ∧ (myexec false (fun _ => none) (some out)).1 = some 0 := by
  have text : 0 ∉ List.replicate 1010 97 ++ success :=
    List.not_mem_append (not_mem_letters (by decide)) (by decide)
  have one : lines newline (List.replicate 1010 97 ++ success) = [_] :=
    lines_last (List.not_mem_append (not_mem_letters (by decide)) (by decide))
      (List.append_ne_nil_of_right_ne_nil _ (by decide))
  refine ⟨⟨_, by rw [one]; exact List.mem_singleton_self _, (List.suffix_append _ _).isInfix⟩, ?_⟩
  refine (verdict_within text (myexec_plain _)).2 ?_
  rintro ⟨line, hl, i, first, fits⟩
  rw [one, List.mem_singleton] at hl
  subst hl
  have size : success.length = 22 := by decide
  -- the text begins with a c, of which there is none before it
  have at_i : (List.replicate 1010 97 ++ success)[i]? = some 99 := by
    have head := List.prefix_iff_getElem?.mp first 0 (by decide)
    rwa [List.getElem?_drop] at head
  have inside : 1010 ≤ i := by
    by_contra early
    have letter : i < (List.replicate 1010 (97 : UInt8)).length := by
      rw [List.length_replicate]
      omega
    rw [List.getElem?_append_left letter] at at_i
    exact not_mem_letters (by decide) (List.mem_of_getElem? at_i)
  have length := first.length_le
  rw [List.length_drop, List.length_append, List.length_replicate] at length
  omega

end Leano.Common
