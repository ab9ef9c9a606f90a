import Mathlib.Data.List.Infix
import Mathlib.Data.List.TakeWhile

/-! A stream of lines that is read with `fgets`, through windows of at most `k` elements: a line
that does not fit comes in pieces, each but the last of `k` elements. -/

universe u

namespace Leano.Lib

variable {α : Type u} [DecidableEq α]

def fgets (k : Nat) (e : α) : List α → Option (List α × List α)
  | [] => none
  | a :: l => some ((a :: l).splitAt (min k (((a :: l).takeWhile fun b => b ≠ e).length + 1)))

def windowsFrom (k : Nat) (e : α) : Nat → List α → List (List α)
  | 0, _ => []
  | fuel + 1, l =>
    match fgets k e l with
    | none => []
    | some (w, rest) => w :: windowsFrom k e fuel rest

def windows (k : Nat) (e : α) (l : List α) : List (List α) := windowsFrom k e l.length l

def lines (e : α) (l : List α) : List (List α) :=
  if (l.splitOn e).getLast? = some [] then (l.splitOn e).dropLast else l.splitOn e

def Fits (k : Nat) (e : α) (l : List α) : Prop :=
  (∀ line ∈ (l.splitOn e).dropLast, line.length < k) ∧
    ∀ line ∈ (l.splitOn e).getLast?, line.length ≤ k

variable {k : Nat} {e : α} {l seg rest w : List α}

section fgets

theorem fgets_of_ne_nil (h : l ≠ []) :
    fgets k e l = some (l.splitAt (min k ((l.takeWhile fun b => b ≠ e).length + 1))) := by
  cases l with
  | nil => exact absurd rfl h
  | cons a l => rfl

theorem takeWhile_of_not_mem (he : e ∉ seg) : seg.takeWhile (fun b => b ≠ e) = seg := by
  refine List.takeWhile_eq_self_iff.mpr fun b hb => decide_eq_true ?_
  rintro rfl
  exact he hb

theorem takeWhile_line (he : e ∉ seg) :
    (seg ++ e :: rest).takeWhile (fun b => b ≠ e) = seg := by
  rw [List.takeWhile_append, takeWhile_of_not_mem he, if_pos rfl,
    List.takeWhile_cons_of_neg (by simp), List.append_nil]

theorem fgets_line (he : e ∉ seg) (h : seg.length < k) :
    fgets k e (seg ++ e :: rest) = some (seg ++ [e], rest) := by
  have all : seg ++ e :: rest = (seg ++ [e]) ++ rest := by simp
  have length : min k (seg.length + 1) = (seg ++ [e]).length := by
    rw [List.length_append, List.length_singleton]
    omega
  rw [fgets_of_ne_nil (by simp), takeWhile_line he, length, all, List.splitAt_eq,
    List.take_left, List.drop_left]

theorem fgets_full (he : e ∉ seg) (ne : seg ≠ []) (h : seg.length = k) :
    fgets k e (seg ++ rest) = some (seg, rest) := by
  have long : seg.length ≤ ((seg ++ rest).takeWhile fun b => b ≠ e).length := by
    rw [List.takeWhile_append, takeWhile_of_not_mem he, if_pos rfl, List.length_append]
    omega
  have length : min k (((seg ++ rest).takeWhile fun b => b ≠ e).length + 1) = seg.length := by
    omega
  rw [fgets_of_ne_nil (List.append_ne_nil_of_left_ne_nil ne _), length, List.splitAt_eq,
    List.take_left, List.drop_left]

theorem fgets_last (he : e ∉ seg) (ne : seg ≠ []) (h : seg.length < k) :
    fgets k e seg = some (seg, []) := by
  rw [fgets_of_ne_nil ne, takeWhile_of_not_mem he, List.splitAt_eq,
    List.take_of_length_le (by omega), List.drop_of_length_le (by omega)]

end fgets

@[simp] theorem windows_nil : windows k e ([] : List α) = [] := rfl

section windows

inductive Begins (k : Nat) (e : α) : List α → List α → List α → Prop
  | line (seg rest : List α) : e ∉ seg → seg.length < k →
      Begins k e (seg ++ e :: rest) (seg ++ [e]) rest
  | full (seg rest : List α) : e ∉ seg → seg ≠ [] → seg.length = k →
      Begins k e (seg ++ rest) seg rest
  | last (seg : List α) : e ∉ seg → seg ≠ [] → seg.length < k → Begins k e seg seg []

omit [DecidableEq α] in
theorem Begins.append (h : Begins k e l w rest) : l = w ++ rest := by
  cases h with
  | line => simp
  | full => rfl
  | last => simp

omit [DecidableEq α] in
theorem Begins.suffix (h : Begins k e l w rest) : rest <:+ l := h.append ▸ List.suffix_append ..

omit [DecidableEq α] in
theorem Begins.length_le (h : Begins k e l w rest) : w.length ≤ k := by
  cases h with
  | line seg rest he hk => rwa [List.length_append, List.length_singleton, Nat.succ_le_iff]
  | full seg rest he ne hk => exact hk.le
  | last seg he ne hk => exact hk.le

omit [DecidableEq α] in
theorem Begins.ne_nil (h : Begins k e l w rest) : w ≠ [] := by
  cases h with
  | line => simp
  | full _ _ he ne => exact ne
  | last _ he ne => exact ne

omit [DecidableEq α] in
theorem Begins.length_lt (h : Begins k e l w rest) : rest.length < l.length := by
  have pos := List.length_pos_iff.mpr h.ne_nil
  rw [h.append, List.length_append]
  omega

theorem Begins.fgets (h : Begins k e l w rest) : fgets k e l = some (w, rest) := by
  cases h with
  | line _ _ he hk => exact fgets_line he hk
  | full _ _ he ne hk => exact fgets_full he ne hk
  | last _ he ne hk => exact fgets_last he ne hk

theorem exists_begins (pos : 0 < k) (h : l ≠ []) : ∃ w rest, Begins k e l w rest := by
  have outside : e ∉ l.takeWhile fun b => b ≠ e := fun he => by
    simpa using List.mem_takeWhile_imp he
  by_cases long : k ≤ (l.takeWhile fun b => b ≠ e).length
  · refine ⟨l.take k, l.drop k, ?_⟩
    have inside : l.take k <+: l.takeWhile fun b => b ≠ e := by
      refine List.prefix_of_prefix_length_le (List.take_prefix _ _) (List.takeWhile_prefix _) ?_
      exact (List.length_take_le _ _).trans long
    have all := (List.takeWhile_prefix (l := l) fun b => b ≠ e).length_le
    have size : (l.take k).length = k := List.length_take_of_le (long.trans all)
    have first := Begins.full (l.take k) (l.drop k) (fun he => outside (inside.subset he))
      (List.length_pos_iff.mp (by omega)) size
    rwa [List.take_append_drop] at first
  · have short := Nat.lt_of_not_le long
    have all := List.takeWhile_append_dropWhile (p := fun b => decide (b ≠ e)) (l := l)
    cases hd : l.dropWhile fun b => b ≠ e with
    | nil =>
      rw [hd, List.append_nil] at all
      rw [all] at outside short
      exact ⟨l, [], .last _ outside h short⟩
    | cons b rest =>
      have stop := List.head?_dropWhile_not (fun b => decide (b ≠ e)) l
      rw [hd] at stop
      obtain rfl : b = e := by simpa using stop
      have first := Begins.line _ rest outside short
      rw [← hd, all] at first
      exact ⟨_, rest, first⟩

theorem windowsFrom_eq {fuel : Nat} (pos : 0 < k) (enough : l.length ≤ fuel) :
    windowsFrom k e fuel l = windows k e l := by
  induction fuel using Nat.strong_induction_on generalizing l with
  | _ fuel ih =>
    by_cases h : l = []
    · subst h
      cases fuel <;> rfl
    · obtain ⟨w, rest, first⟩ := exists_begins (e := e) pos h
      have shorter := first.length_lt
      obtain ⟨n, rfl⟩ : ∃ n, fuel = n + 1 := Nat.exists_eq_succ_of_ne_zero (by omega)
      obtain ⟨m, hm⟩ : ∃ m, l.length = m + 1 := Nat.exists_eq_succ_of_ne_zero (by omega)
      rw [windows, hm]
      simp only [windowsFrom, first.fgets]
      rw [ih n (by omega) (by omega), ih m (by omega) (by omega)]

theorem Begins.windows (h : Begins k e l w rest) (pos : 0 < k) :
    windows k e l = w :: windows k e rest := by
  have shorter := h.length_lt
  obtain ⟨n, hn⟩ : ∃ n, l.length = n + 1 := Nat.exists_eq_succ_of_ne_zero (by omega)
  rw [Lib.windows, hn]
  simp only [windowsFrom, h.fgets]
  rw [windowsFrom_eq pos (by omega)]

theorem windows_induction {motive : List α → Prop} (pos : 0 < k) (nil : motive [])
    (next : ∀ l w rest, Begins k e l w rest → motive rest → motive l) (l : List α) : motive l := by
  induction hn : l.length using Nat.strong_induction_on generalizing l with
  | _ n ih =>
    by_cases h : l = []
    · exact h ▸ nil
    · obtain ⟨w, rest, first⟩ := exists_begins (e := e) pos h
      exact next l w rest first (ih _ (hn ▸ first.length_lt) rest rfl)

theorem exists_begins_of_mem (pos : 0 < k) (h : w ∈ windows k e l) :
    ∃ l' rest, l' <:+ l ∧ Begins k e l' w rest := by
  induction l using windows_induction (e := e) pos with
  | nil => cases h
  | next l w' rest first ih =>
    rw [first.windows pos] at h
    rcases List.mem_cons.mp h with rfl | h
    · exact ⟨l, rest, List.suffix_rfl, first⟩
    · obtain ⟨l', rest', suffix, begins⟩ := ih h
      exact ⟨l', rest', suffix.trans first.suffix, begins⟩

theorem flatten_windows (pos : 0 < k) (l : List α) : (windows k e l).flatten = l := by
  induction l using windows_induction (e := e) pos with
  | nil => rfl
  | next l w rest first ih => rw [first.windows pos, List.flatten_cons, ih, ← first.append]

theorem Begins.filter (h : Begins k e l w rest) :
    w.filter (fun b => b ≠ e) = w.takeWhile fun b => b ≠ e := by
  have all : ∀ {seg : List α}, e ∉ seg → seg.filter (fun b => b ≠ e) = seg := by
    intro seg he
    refine List.filter_eq_self.mpr fun b hb => decide_eq_true ?_
    rintro rfl
    exact he hb
  cases h with
  | line seg _ he => rw [takeWhile_line he, List.filter_append, all he]; simp
  | full _ _ he => rw [takeWhile_of_not_mem he, all he]
  | last _ he => rw [takeWhile_of_not_mem he, all he]

end windows

section lines

theorem splitOn_append (he : e ∉ seg) :
    (seg ++ rest).splitOn e = (rest.splitOn e).modifyHead (seg ++ ·) := by
  induction seg with
  | nil => cases h : rest.splitOn e <;> simp [h]
  | cons a seg ih =>
    obtain ⟨ne, he⟩ := List.ne_and_not_mem_of_not_mem_cons he
    rw [List.cons_append, List.splitOn_cons_eq_if_modifyHead, if_neg (by simpa using Ne.symm ne),
      ih he]
    cases rest.splitOn e <;> rfl

theorem exists_splitOn (ne : rest ≠ []) :
    ∃ s ss, rest.splitOn e = s :: ss ∧ (ss = [] → s ≠ []) := by
  obtain ⟨s, ss, hs⟩ := List.exists_cons_of_ne_nil (List.splitOn_ne_nil e rest)
  refine ⟨s, ss, hs, ?_⟩
  rintro rfl rfl
  have none : [e].intercalate (rest.splitOn e) = rest := List.intercalate_splitOn e
  rw [hs] at none
  exact ne none.symm

theorem lines_nil : lines e ([] : List α) = [] := by simp [lines]

theorem lines_line (he : e ∉ seg) : lines e (seg ++ e :: rest) = seg :: lines e rest := by
  obtain ⟨s, ss, hs⟩ := List.exists_cons_of_ne_nil (List.splitOn_ne_nil e rest)
  simp only [lines, List.splitOn_append_cons_self_of_not_mem he, hs, List.getLast?_cons_cons,
    List.dropLast_cons_cons]
  split
  · rfl
  · rfl

theorem lines_last (he : e ∉ seg) (ne : seg ≠ []) : lines e seg = [seg] := by
  simp [lines, List.splitOn_eq_singleton he, ne]

theorem length_lines_append (he : e ∉ seg) (ne : rest ≠ []) :
    (lines e (seg ++ rest)).length = (lines e rest).length := by
  obtain ⟨s, ss, hs, more⟩ := exists_splitOn (e := e) ne
  simp only [lines, splitOn_append he, hs, List.modifyHead_cons]
  cases ss with
  | nil => simp [more rfl]
  | cons s' ss =>
    simp only [List.getLast?_cons_cons]
    split
    · simp
    · simp

theorem fits_line (he : e ∉ seg) :
    Fits k e (seg ++ e :: rest) ↔ seg.length < k ∧ Fits k e rest := by
  obtain ⟨s, ss, hs⟩ := List.exists_cons_of_ne_nil (List.splitOn_ne_nil e rest)
  simp only [Fits, List.splitOn_append_cons_self_of_not_mem he, hs, List.getLast?_cons_cons,
    List.dropLast_cons_cons, List.forall_mem_cons, and_assoc]

theorem fits_last (he : e ∉ seg) : Fits k e seg ↔ seg.length ≤ k := by
  simp [Fits, List.splitOn_eq_singleton he]

theorem not_fits_full (he : e ∉ seg) (h : seg.length = k) (ne : rest ≠ []) :
    ¬ Fits k e (seg ++ rest) := by
  obtain ⟨s, ss, hs, more⟩ := exists_splitOn (e := e) ne
  simp only [Fits, splitOn_append he, hs, List.modifyHead_cons]
  rintro ⟨inner, outer⟩
  cases ss with
  | nil =>
    have long : (seg ++ s).length ≤ k := outer _ rfl
    have pos := List.length_pos_iff.mpr (more rfl)
    rw [List.length_append] at long
    omega
  | cons s' ss =>
    have long := inner (seg ++ s) (by simp)
    rw [List.length_append] at long
    omega

theorem exists_line_iff {P : List α → Prop} (nil : ¬ P []) :
    (∃ line ∈ lines e l, P line) ↔ ∃ line ∈ l.splitOn e, P line := by
  unfold lines
  split
  case isTrue ends =>
    have all := List.dropLast_append_getLast? [] ends
    constructor
    · rintro ⟨line, hl, hp⟩
      exact ⟨line, List.mem_of_mem_dropLast hl, hp⟩
    · rintro ⟨line, hl, hp⟩
      rw [← all, List.mem_append, List.mem_singleton] at hl
      rcases hl with hl | rfl
      · exact ⟨line, hl, hp⟩
      · exact absurd hp nil
  case isFalse => exact Iff.rfl

end lines

section windows

theorem windows_lines (pos : 0 < k) (l : List α) : (lines e l).length ≤ (windows k e l).length ∧
    ((lines e l).length = (windows k e l).length → Fits k e l) ∧
    (Fits k e l → (windows k e l).map (List.takeWhile fun b => b ≠ e) = lines e l) := by
  induction l using windows_induction (e := e) pos with
  | nil => simp [lines_nil, Fits]
  | next l w rest first ih =>
    obtain ⟨le, fits, same⟩ := ih
    rw [first.windows pos, List.length_cons, List.map_cons]
    cases first with
    | line seg _ he hk =>
      rw [lines_line he, List.length_cons, fits_line he, takeWhile_line he]
      refine ⟨by omega, fun eq => ⟨hk, fits (by omega)⟩, fun all => ?_⟩
      rw [same all.2]
    | full _ _ he some hk =>
      by_cases ne : rest = []
      · subst ne
        rw [List.append_nil, lines_last he some, fits_last he, takeWhile_of_not_mem he]
        exact ⟨by simp, fun _ => hk.le, fun _ => rfl⟩
      · rw [length_lines_append he ne]
        exact ⟨by omega, by omega, fun all => absurd all (not_fits_full he hk ne)⟩
    | last _ he ne hk =>
      rw [lines_last he ne, fits_last he, takeWhile_of_not_mem he]
      exact ⟨by simp, fun _ => hk.le, fun _ => rfl⟩

/-- The windows are the lines exactly if each line fits into one. -/
theorem windows_eq_lines_iff (pos : 0 < k) :
    (windows k e l).map (List.takeWhile fun b => b ≠ e) = lines e l ↔ Fits k e l := by
  obtain ⟨-, fits, same⟩ := windows_lines (e := e) pos l
  refine ⟨fun eq => fits ?_, same⟩
  rw [← eq, List.length_map]

end windows

section pieces

variable {Q : List α → Prop} {m : List α}

omit [DecidableEq α] in
theorem exists_piece_append (h : seg.length = k) :
    (∃ j, Q (((seg ++ rest).drop (j * k)).take k)) ↔
      Q seg ∨ ∃ j, Q ((rest.drop (j * k)).take k) := by
  rw [← Nat.or_exists_add_one]
  refine or_congr (by simp [← h]) (exists_congr fun j => ?_)
  rw [Nat.succ_mul, Nat.add_comm, ← h, List.drop_length_add_append]

omit [DecidableEq α] in
theorem exists_piece_short (nil : ¬ Q []) (h : seg.length < k) :
    (∃ j, Q ((seg.drop (j * k)).take k)) ↔ Q seg := by
  rw [← Nat.or_exists_add_one, Nat.zero_mul, List.drop_zero, List.take_of_length_le h.le]
  refine or_iff_left ?_
  rintro ⟨j, hj⟩
  rw [Nat.succ_mul, List.drop_of_length_le (by omega), List.take_nil] at hj
  exact nil hj

omit [DecidableEq α] in
theorem exists_piece_iff (ne : m ≠ []) : (∃ j, m <:+: (l.drop (j * k)).take k) ↔
    ∃ i, m <+: l.drop i ∧ i % k + m.length ≤ k := by
  have pos := List.length_pos_iff.mpr ne
  constructor
  · rintro ⟨j, before, after, eq⟩
    have length := congrArg List.length eq
    rw [List.length_append, List.length_append, List.length_take] at length
    have short : before.length < k := by omega
    refine ⟨j * k + before.length, ?_, ?_⟩
    · have here : m ++ after = ((l.drop (j * k)).take k).drop before.length := by
        rw [← eq, List.append_assoc, List.drop_left]
      rw [List.drop_take, List.drop_drop] at here
      exact (List.prefix_append m after).trans (here ▸ List.take_prefix _ _)
    · rw [Nat.mul_add_mod_self_right, Nat.mod_eq_of_lt short]
      omega
  · rintro ⟨i, first, fits⟩
    refine ⟨i / k, ?_⟩
    have split : l.drop i = (l.drop (i / k * k)).drop (i % k) := by
      rw [List.drop_drop, Nat.mul_comm, Nat.div_add_mod]
    rw [split] at first
    have inside : m <+: ((l.drop (i / k * k)).drop (i % k)).take (k - i % k) :=
      List.prefix_take_iff.mpr ⟨first, by omega⟩
    rw [← List.drop_take] at inside
    exact inside.isInfix.trans (List.drop_suffix _ _).isInfix

omit [DecidableEq α] in
theorem infix_line_iff (he : e ∉ m) (seg : List α) : m <:+: seg ++ [e] ↔ m <:+: seg := by
  rw [List.infix_concat_iff, List.suffix_concat_iff]
  constructor
  · rintro ((rfl | ⟨t, rfl, -⟩) | inside)
    · exact List.nil_infix
    · exact absurd (by simp) he
    · exact inside
  · exact .inr

theorem exists_window_iff (pos : 0 < k) (nil : ¬ Q []) (ends : ∀ seg, Q (seg ++ [e]) ↔ Q seg) :
    (∃ w ∈ windows k e l, Q w) ↔ ∃ line ∈ l.splitOn e, ∃ j, Q ((line.drop (j * k)).take k) := by
  induction l using windows_induction (e := e) pos with
  | nil => simp [nil]
  | next l w rest first ih =>
    rw [first.windows pos, List.exists_mem_cons_iff]
    cases first with
    | line seg _ he hk =>
      rw [List.splitOn_append_cons_self_of_not_mem he, List.exists_mem_cons_iff, ends, ih,
        exists_piece_short nil hk]
    | full seg _ he _ hk =>
      obtain ⟨s, ss, hs⟩ := List.exists_cons_of_ne_nil (List.splitOn_ne_nil e rest)
      rw [splitOn_append he, ih, hs, List.modifyHead_cons, List.exists_mem_cons_iff,
        List.exists_mem_cons_iff, exists_piece_append hk, or_assoc]
    | last _ he ne hk =>
      rw [List.splitOn_eq_singleton he, List.exists_mem_cons_iff, exists_piece_short nil hk]
      simp

end pieces

end Leano.Lib
