import Leano.Common.Output

namespace Leano.Common

open Leano.Lib

variable {debug : Bool} {thrown : Option Throw} {throws : Nat → Option Throw} {s : State}
  {out w : Bytes} {ws : List Bytes}

theorem begins_chomp (tmp : Bytes) : chomp tmp <+: tmp := by
  unfold chomp
  split
  · exact List.dropLast_prefix tmp
  · exact List.prefix_refl tmp

theorem begins_beforeNul (w : Bytes) : beforeNul w <+: w := List.takeWhile_prefix _

theorem begins_lineOf (w : Bytes) : lineOf w <+: w :=
  (begins_chomp _).trans (begins_beforeNul w)

theorem nul_not_mem_lineOf (w : Bytes) : 0 ∉ lineOf w := by
  intro nul
  have inside := (begins_chomp _).subset nul
  simpa using List.mem_takeWhile_imp inside

theorem newline_not_mem_lineOf (h : w ∈ windows 1023 newline out) : newline ∉ lineOf w := by
  obtain ⟨l', rest, -, begins⟩ := exists_begins_of_mem (by decide) h
  have within : ∀ {seg : Bytes}, newline ∉ seg → newline ∉ lineOf seg :=
    fun he end' => he ((begins_lineOf _).subset end')
  cases begins with
  | line seg _ he =>
    by_cases nul : 0 ∈ seg
    · rw [lineOf, beforeNul_append_of_mem nul]
      exact within he
    · have whole : beforeNul (seg ++ [newline]) = seg ++ [newline] := by
        refine takeWhile_of_not_mem ?_
        exact List.not_mem_append nul (by decide)
      rw [lineOf, whole, chomp, List.getLast?_concat, if_pos rfl, List.dropLast_concat]
      exact he
  | full _ _ he => exact within he
  | last _ he => exact within he

theorem leave_round : (leave (round debug thrown s w)).2.resvec = s.resvec ∨
    (leave (round debug thrown s w)).2.resvec = s.resvec ++ [lineOf w] := by
  have pushed : ((s.chomp (beforeNul w)).pushBack (lineOf w)).resvec = s.resvec ++ [lineOf w] :=
    congrArg (· ++ [lineOf w]) (chomp_resvec _)
  unfold round
  dsimp only
  split
  case isTrue => exact .inl (chomp_resvec _)
  case isFalse =>
    split
    case isTrue => exact .inl (chomp_resvec _)
    case isFalse =>
      right
      split
      case isTrue => exact pushed
      case isFalse =>
        split
        case isTrue => rw [leave]; split <;> exact pushed
        case isFalse => rw [leave]; split <;> exact pushed

theorem leave_rounds : ∃ k, (leave (rounds debug throws s ws)).2.resvec =
    s.resvec ++ (ws.take k).map lineOf := by
  induction ws generalizing throws s with
  | nil => exact ⟨0, (List.append_nil _).symm⟩
  | cons w ws ih =>
    rw [rounds]
    cases hr : round debug (throws 0) s w with
    | ok u =>
      obtain ⟨k, hk⟩ := @ih (fun n => throws (n + 1)) u
      refine ⟨k + 1, hk.trans ?_⟩
      rw [(round_ok hr).resvec, List.append_assoc]
      rfl
    | error stop =>
      have last : (leave (round debug (throws 0) s w)).2.resvec = s.resvec ∨
          (leave (round debug (throws 0) s w)).2.resvec = s.resvec ++ [lineOf w] := leave_round
      rw [hr] at last
      rcases last with none | one
      · exact ⟨0, none.trans (List.append_nil _).symm⟩
      · exact ⟨1, one⟩

theorem myexec_resvec (debug : Bool) (throws : Nat → Option Throw) (out : Bytes) :
    ∃ k, (myexec debug throws (some out)).2.resvec =
      ((windows 1023 newline out).take k).map lineOf := leave_rounds

def printed (out : Bytes) : Bytes := out.filter fun b => b ≠ newline

theorem printed_flatten (ws : List Bytes) : printed ws.flatten = (ws.map printed).flatten :=
  List.filter_flatten

theorem lineOf_sublist (h : w ∈ windows 1023 newline out) : (lineOf w).Sublist (printed w) := by
  have same : printed (lineOf w) = lineOf w := by
    refine List.filter_eq_self.mpr fun b hb => decide_eq_true ?_
    rintro rfl
    exact newline_not_mem_lineOf h hb
  rw [← same]
  exact (begins_lineOf w).sublist.filter _

theorem lineOf_text (text : 0 ∉ out) (h : w ∈ windows 1023 newline out) :
    lineOf w = printed w := by
  obtain ⟨l', rest, -, begins⟩ := exists_begins_of_mem (by decide) h
  rw [(window_text text h).2.2.2, printed, begins.filter]

theorem flatten_sublist {f g : Bytes → Bytes} (h : ∀ w ∈ ws, (f w).Sublist (g w)) :
    (ws.map f).flatten.Sublist (ws.map g).flatten := by
  induction ws with
  | nil => exact .slnil
  | cons w ws ih =>
    obtain ⟨first, rest⟩ := List.forall_mem_cons.mp h
    exact first.append (ih rest)

theorem printed_take (out : Bytes) (k : Nat) :
    (((windows 1023 newline out).take k).map printed).flatten <+: printed out := by
  conv_rhs => rw [← flatten_windows (k := 1023) (e := newline) (by decide) out,
    ← List.take_append_drop k (windows 1023 newline out), List.flatten_append, printed,
    List.filter_append]
  rw [← printed_flatten]
  exact List.prefix_append _ _

/-- Whatever throws, in either build: the entries are short strings without newlines, which read one
after another are in the output in that order. Of an output without NULs they are a beginning, and
all of it unless -1 is returned. -/
theorem output_kept (debug : Bool) (throws : Nat → Option Throw) (out : Bytes) :
    (∀ line ∈ (myexec debug throws (some out)).2.resvec,
      line.length ≤ 1023 ∧ newline ∉ line ∧ 0 ∉ line) ∧
    (myexec debug throws (some out)).2.resvec.flatten.Sublist (printed out) ∧
    (0 ∉ out → (myexec debug throws (some out)).2.resvec.flatten <+: printed out ∧
      ((myexec debug throws (some out)).1 ≠ some (-1) →
        (myexec debug throws (some out)).2.resvec.flatten = printed out)) := by
  obtain ⟨k, resvec⟩ := myexec_resvec debug throws out
  have whole : ∀ {w}, w ∈ (windows 1023 newline out).take k → w ∈ windows 1023 newline out :=
    fun hw => List.mem_of_mem_take hw
  refine ⟨?_, ?_, fun text => ⟨?_, fun quiet => ?_⟩⟩
  · rw [resvec]
    intro line hl
    obtain ⟨w, hw, rfl⟩ := List.mem_map.mp hl
    obtain ⟨l', rest, -, begins⟩ := exists_begins_of_mem (by decide) (whole hw)
    exact ⟨(begins_lineOf w).length_le.trans begins.length_le, newline_not_mem_lineOf (whole hw),
      nul_not_mem_lineOf w⟩
  · rw [resvec]
    exact (flatten_sublist fun w hw => lineOf_sublist (whole hw)).trans (printed_take out k).sublist
  · rw [resvec, List.map_congr_left fun w hw => lineOf_text text (whole hw)]
    exact printed_take out k
  · have same : (windows 1023 newline out).map (List.takeWhile fun b => b ≠ newline) =
        (windows 1023 newline out).map printed :=
      List.map_congr_left fun w hw => by
        rw [← (window_text text hw).2.2.2, lineOf_text text hw]
    rw [(myexec_text text quiet).1, same, ← printed_flatten, flatten_windows (by decide)]

theorem output_kept_of_three :
    let throws : Nat → Option Throw := fun i => if i = 1 then some .later else none
    let r := myexec false throws (some [97, 10, 98, 10, 99])
    r.1 = some (-1) ∧ r.2.resvec = [[97], [98]] ∧
      r.2.resvec.flatten <+: printed [97, 10, 98, 10, 99] := by
  exact ⟨by decide, by decide, ((output_kept _ _ _).2.2 (by decide)).1⟩

end Leano.Common
