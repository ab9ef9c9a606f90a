import Leano.Common.Myexec

namespace Leano.Common

open Leano.Lib

variable {debug : Bool} {thrown : Option Throw} {throws : Nat → Option Throw} {s : State}
  {out w : Bytes} {ws : List Bytes} {i : Int}

theorem round_accesses : i ∈ (leave (round debug thrown s w)).2.accesses ↔
    i ∈ s.accesses ∨ i = (beforeNul w).length - 1 := by
  rw [← chomp_accesses]
  have ends : Round debug thrown s w (round debug thrown s w) := round_cases
  generalize round debug thrown s w = r at ends
  cases ends with
  | outside => rfl
  | caught _ _ same => exact iff_of_eq (congrArg (i ∈ ·) same)
  | ok _ _ same => exact iff_of_eq (congrArg (i ∈ ·) same)

theorem rounds_within (start : ∀ i ∈ s.accesses, Inside i)
    (within : ∀ w ∈ ws, Inside ((beforeNul w).length - 1)) :
    ∀ i ∈ (leave (rounds debug throws s ws)).2.accesses, Inside i := by
  induction ws generalizing throws s with
  | nil => exact start
  | cons w ws ih =>
    obtain ⟨first, rest⟩ := List.forall_mem_cons.mp within
    have now : ∀ i ∈ (leave (round debug (throws 0) s w)).2.accesses, Inside i := by
      intro i hi
      rcases round_accesses.mp hi with before | rfl
      · exact start i before
      · exact first
    rw [rounds]
    cases hr : round debug (throws 0) s w with
    | ok u =>
      rw [hr] at now
      exact ih now rest
    | error stop =>
      rw [hr] at now
      exact now

theorem rounds_outside (hw : w ∈ ws) (outside : ¬ Inside ((beforeNul w).length - 1)) :
    ∃ i ∈ (leave (rounds false (fun _ => none) s ws)).2.accesses, ¬ Inside i := by
  induction ws generalizing s with
  | nil => cases hw
  | cons w' ws ih =>
    rw [rounds]
    have ends : Round false none s w' (round false none s w') := round_cases
    have here : ((beforeNul w').length - 1 : Int) ∈
        (leave (round false none s w')).2.accesses := round_accesses.mpr (.inr rfl)
    generalize round false none s w' = r at ends here
    cases ends with
    | outside out => exact ⟨_, here, out⟩
    | caught _ why => exact why.elim Bool.noConfusion fun thrown => absurd rfl thrown
    | ok inside =>
      refine ih ?_
      rcases List.mem_cons.mp hw with rfl | rest
      · exact absurd inside outside
      · exact rest

theorem window_inside_iff (h : w ∈ windows 1023 newline out) :
    Inside ((beforeNul w).length - 1) ↔ w.head? ≠ some 0 := by
  obtain ⟨l', rest, -, begins⟩ := exists_begins_of_mem (by decide) h
  have short := (List.takeWhile_prefix (p := fun b : UInt8 => b ≠ 0) (l := w)).length_le
  have le := begins.length_le
  cases w with
  | nil => exact absurd rfl begins.ne_nil
  | cons b w =>
    rw [beforeNul, Inside]
    by_cases nul : b = 0
    · simp [nul]
    · have more : ((b :: w).takeWhile fun b => b ≠ 0) = b :: w.takeWhile fun b => b ≠ 0 :=
        List.takeWhile_cons_of_pos (by simpa using nul)
      rw [more] at short ⊢
      simp [nul] at *
      omega

/-- All accesses are inside of the buffer exactly if no line has a NUL where a window starts. -/
theorem accesses_inside_iff (out : Bytes) :
    (∀ debug throws, ∀ i ∈ (myexec debug throws (some out)).2.accesses, Inside i) ↔
      ∀ row ∈ out.splitOn newline, ∀ j, row[j * 1023]? ≠ some 0 := by
  have starts : (∃ w ∈ windows 1023 newline out, w.head? = some 0) ↔
      ∃ row ∈ out.splitOn newline, ∃ j, row[j * 1023]? = some 0 := by
    refine (exists_window_iff (by decide) (by simp) fun seg => ?_).trans ?_
    · cases seg with
      | nil => decide
      | cons b seg => rfl
    · simp only [List.head?_take, List.head?_drop]
      rfl
  constructor
  · intro inside row hl j nul
    obtain ⟨w, hw, head⟩ := starts.mpr ⟨row, hl, j, nul⟩
    obtain ⟨i, hi, outside⟩ := rounds_outside (s := ⟨0, [], []⟩) hw fun h =>
      (window_inside_iff hw).mp h head
    exact outside (inside false (fun _ => none) i hi)
  · intro clear debug throws
    refine rounds_within (fun i hi => absurd hi List.not_mem_nil) fun w hw => ?_
    refine (window_inside_iff hw).mpr fun head => ?_
    obtain ⟨row, hl, j, nul⟩ := starts.mp ⟨w, hw, head⟩
    exact clear row hl j nul

/-- An output that starts with a NUL. -/
theorem access_before_buffer :
    (myexec false (fun _ => none) (some [0, 10])).2.accesses = [-1] ∧ ¬ Inside (-1) := by
  exact ⟨by decide, by decide⟩

end Leano.Common
