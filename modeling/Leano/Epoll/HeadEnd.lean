import Leano.Epoll.RequestLine

namespace Leano.Epoll

open Leano.Lib

def HeadEnds (s : List UInt8) : Prop := (∀ l ∈ headLines s, Within Dest.room l) ∧ Ended s

instance (s : List UInt8) : Decidable (HeadEnds s) := inferInstanceAs (Decidable (_ ∧ _))

def behindLine (s : List UInt8) : List UInt8 := (s.dropWhile (· ≠ 10)).drop 1

section condition

variable {s l : List UInt8}

theorem headEnds_line (h : 10 ∉ l) :
    HeadEnds (l ++ 10 :: s) ↔ l.length = 1 ∨ Within Dest.room l ∧ HeadEnds s := by
  rw [HeadEnds, headLines_line h, ended_line h]
  by_cases one : l.length = 1
  · simp [one]
  · simp [one, HeadEnds, and_assoc]

theorem not_headEnds_open (h : 10 ∉ s) : ¬ HeadEnds s := fun ends => not_ended_open h ends.2

theorem behindLine_line (h : 10 ∉ l) : behindLine (l ++ 10 :: s) = s := by
  rw [behindLine, List.dropWhile_append_of_pos]
  · simp
  · intro b hb
    simpa using fun eq : b = 10 => h (eq ▸ hb)

end condition

namespace Parse

def Inside (p : Parse) : Prop :=
  (p.pc = .head → ∃ n, strpbrk newline p.conn.rest = .ok (some n)) ∧
    p.conn.queryStartIndex ≤ p.conn.queryEndIndex ∧ (p.pc = .head ∨ p.pc = .body)

variable {p q : Parse} {e : Int} {c : WebConnection} {s l r tail : List UInt8}

theorem inside_of_splits (hp : p.pc = .head) (h : Splits newline p.conn.rest l r)
    (received : p.conn.queryStartIndex ≤ p.conn.queryEndIndex) : Inside p :=
  ⟨fun _ => ⟨_, h.found⟩, received, .inl hp⟩

theorem not_inside_open (hp : p.pc = .head) (nul : 0 ∉ s) (h : 10 ∉ s)
    (hr : p.conn.rest = s ++ 0 :: tail) : ¬ Inside p := by
  intro inside
  obtain ⟨n, found⟩ := inside.1 hp
  rw [hr, strpbrk_of_ends (clean_newline nul h) (.inl rfl), if_pos rfl] at found
  cases found

theorem not_always_line (hp : p.pc = .head) (h : Splits newline p.conn.rest l r)
    (ne : l.length ≠ 1) (past : ¬ Within Dest.room l) : ¬ Always (step e) Inside p := by
  intro always
  obtain ⟨hit, named, out⟩ : ∃ hit, named l = some hit ∧
      ¬ (hit.2 ≤ l.length ∧ l.length ≤ hit.2 + hit.1.room) := by
    simpa [Within] using past
  have line := step_line (e := e) (x := false) hp h ne
  simp only [named] at line
  have lost : ¬ (p.valueCopy l.length hit).Returns false
      ((p.worked l).conn.querybuf.drop (p.valueCopy l.length hit).start) := by
    rintro ⟨low, high, -⟩
    simp only [valueCopy, Bool.false_eq_true, or_false] at low high
    omega
  have next := (always_iff.mp always).2 _ _ line
  rw [copy, if_neg lost] at next
  rcases (next _ .start).2.2 with head | body
  · cases head
  · cases body

theorem ends_head (hp : p.pc = .head) (hr : p.conn.rest = s ++ 0 :: tail) (nul : 0 ∉ s)
    (received : p.conn.queryStartIndex + s.length ≤ p.conn.queryEndIndex) :
    Halts (step e) p ∧ Always (step e) Inside p ↔ HeadEnds s := by
  induction s using lines_induction generalizing p with
  | last s h =>
    refine iff_of_false (fun ends => ?_) (not_headEnds_open h)
    exact not_inside_open hp nul h hr (ends.2 p .start)
  | line l s h ih =>
    obtain ⟨split, nulRest⟩ := splits_text hr nul h
    rw [List.length_append, List.length_cons] at received
    have now : Inside p := inside_of_splits hp split (by omega)
    rw [headEnds_line h]
    by_cases one : l.length = 1
    · refine iff_of_true ?_ (.inl one)
      have next (x) := step_last (e := e) (x := x) hp split one
      have stuck : Stuck (step e) (p.jump (p.conn.queryStartIndex + 2) .body) :=
        stuck_iff.mpr (.inl rfl)
      have ended : Inside (p.jump (p.conn.queryStartIndex + 2) .body) := by
        refine ⟨fun head => absurd head (by simp [jump]), ?_, .inr rfl⟩
        simp only [jump]
        omega
      rw [halts_iff_next next, always_iff_next next, stuck.always_iff]
      exact ⟨stuck.halts, now, ended⟩
    · rw [or_iff_right one]
      by_cases within : Within Dest.room l
      · have next (x) := step_line_of_returns (e := e) (x := x) hp split one fun hit named =>
          ⟨(within hit named).1, .inl (within hit named).2⟩
        rw [halts_iff_next next, always_iff_next next, and_iff_right now, and_iff_right within]
        refine ih afterLine_pc (afterLine_rest split) nulRest ?_
        rw [afterLine_start, afterLine_end]
        omega
      · refine iff_of_false (fun ends => ?_) fun ends => within ends.1
        exact not_always_line hp split one within ends.2

/-- The loop ends, and ends inside, exactly if the header block in the text has an end. -/
theorem ends_iff (h : Reach (step e) (start c) p) (hc : c.queryStartIndex = 0) (hp : p.pc = .head)
    (call : p.lines = []) (nul : 0 ∈ c.querybuf)
    (received : (beforeNul c.querybuf).length ≤ c.queryEndIndex) :
    (Halts (step e) p ∧ ∀ q, Reach (step e) p q → Inside q) ↔
      HeadEnds (behindLine (beforeNul c.querybuf)) := by
  have found := found_of_reach h hc
  simp only [Found, hp] at found
  obtain ⟨method, uri, version, rest, requestLine, hr, -⟩ := found call
  have buf : p.conn.querybuf = c.querybuf := (grows_of_reach h).buf
  have last : p.conn.queryEndIndex = c.queryEndIndex := (grows_of_reach h).last
  obtain ⟨line, first, nulLine, newLine⟩ := requestLine.first
  obtain ⟨s, tail, rfl, hs⟩ : ∃ s tail, rest = s ++ 0 :: tail ∧ 0 ∉ s := by
    refine List.eq_append_cons_of_mem ?_
    simpa [first, nulLine] using nul
  have text : beforeNul c.querybuf = line ++ 10 :: s := by
    have outside : 0 ∉ line ++ 10 :: s := by simp [nulLine, hs]
    have buf : c.querybuf = (line ++ 10 :: s) ++ 0 :: tail := by simp [first]
    rw [buf, beforeNul_nul outside]
  have index : p.conn.queryStartIndex = line.length + 1 := by
    have lengths := congrArg List.length hr
    rw [WebConnection.rest, buf, first] at lengths
    simp only [List.length_drop, List.length_append, List.length_cons] at lengths
    omega
  rw [text, behindLine_line newLine]
  refine ends_head hp hr hs ?_
  rw [text, List.length_append, List.length_cons] at received
  omega

theorem ends_of_plain : ∃ p, Reach (step 0) (start { plain with queryEndIndex := 27 }) p ∧
    p.pc = .head ∧ Halts (step 0) p ∧ ∀ q, Reach (step 0) p q → Inside q := by
  obtain ⟨p, reach, h⟩ := exists_reach (step 0) (start { plain with queryEndIndex := 27 })
    [true, true, true] (fun p => decide (p.pc = .head ∧ p.lines = [])) (by decide +kernel)
  obtain ⟨hp, call⟩ := of_decide_eq_true h
  refine ⟨p, reach, hp, (ends_iff reach rfl hp call (by decide) (by decide +kernel)).mpr ?_⟩
  decide +kernel

def lineOnly : WebConnection :=
  { WebConnection.accepted .zero (['G', 'E', 'T', ' ', '/', ' ', 'H', 'T', 'T', 'P', '/', '1',
      '.', '1', '\r', '\n', '\x00'].map Char.toUInt8) with queryEndIndex := 16 }

theorem not_ends : ¬ ∀ e c p, Reach (step e) (start c) p → c.queryStartIndex = 0 → p.pc = .head →
    p.lines = [] → 0 ∈ c.querybuf → (beforeNul c.querybuf).length ≤ c.queryEndIndex →
    Halts (step e) p ∧ ∀ q, Reach (step e) p q → Inside q := by
  intro all
  obtain ⟨p, reach, h⟩ := exists_reach (step 0) (start lineOnly) [true, true, true]
    (fun p => decide (p.pc = .head ∧ p.lines = [] ∧ p.conn.rest = [0])) (by decide +kernel)
  obtain ⟨hp, call, hr⟩ := of_decide_eq_true h
  have ends := all 0 _ p reach rfl hp call (by decide +kernel) (by decide +kernel)
  have hr : p.conn.rest = [] ++ 0 :: [] := hr
  exact not_inside_open hp List.not_mem_nil List.not_mem_nil hr (ends.2 p .start)

end Parse

end Leano.Epoll
