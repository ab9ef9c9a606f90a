import Leano.Epoll.RequestLine

namespace Leano.Epoll

open Leano.Lib

def LinesFit (w : List UInt8) : Prop :=
  (∀ l ∈ headLines (beforeNul w), Within Dest.size l) ∧
    (Ended (beforeNul w) ∨ 0 ∉ w ∨ named (openLine (beforeNul w)) = none)

def openStart (w : List UInt8) : Nat := (beforeNul w).length - (openLine (beforeNul w)).length

def HeadFits (buf : List UInt8) (start : Nat) : Prop :=
  LinesFit (buf.drop start) ∧ (Ended (beforeNul (buf.drop start)) ∨
    ∀ e < buf.length, e ≠ start + openStart (buf.drop start) + 2 → LinesFit (buf.drop e))

def WordFits (k : Nat) (s : List UInt8) (next : Nat → Prop) (start : Nat) : Prop :=
  ∀ n ∈ (s.drop start).findIdx? (· ∈ blanks), n ≤ k ∧ next (start + (n + 1))

def VersionFits (buf : List UInt8) (start : Nat) : Prop :=
  ∀ pos ∈ (beforeNul buf).findIdx? (· ∈ newline),
    start ≤ pos ∧ pos ≤ start + 16 ∧ HeadFits buf (pos + 1)

/-- What the parser cuts out of a buffer from some index on fits into its fields. -/
def CopiesFit (buf : List UInt8) : Nat → Prop :=
  WordFits 8 (beforeNul buf) (WordFits 128 (beforeNul buf) (VersionFits buf))

instance (w : List UInt8) : Decidable (LinesFit w) :=
  inferInstanceAs (Decidable (_ ∧ _))

instance (buf : List UInt8) (start : Nat) : Decidable (HeadFits buf start) :=
  inferInstanceAs (Decidable (_ ∧ (_ ∨ ∀ e < buf.length, _)))

instance (buf : List UInt8) (start : Nat) : Decidable (VersionFits buf start) :=
  inferInstanceAs (Decidable (∀ pos ∈ (beforeNul buf).findIdx? (· ∈ newline), _))

instance (k : Nat) (s : List UInt8) (next : Nat → Prop) [DecidablePred next] (start : Nat) :
    Decidable (WordFits k s next start) :=
  inferInstanceAs (Decidable (∀ n ∈ (s.drop start).findIdx? (· ∈ blanks), _))

instance (buf : List UInt8) (start : Nat) : Decidable (CopiesFit buf start) :=
  inferInstanceAs (Decidable (WordFits 8 _ _ start))

section condition

variable {s l r w tail : List UInt8}

theorem search_induction {motive : List UInt8 → Prop} (past : ∀ w, Clean newline w → motive w)
    (last : ∀ s tail, 0 ∉ s → 10 ∉ s → motive (s ++ 0 :: tail))
    (line : ∀ w l r, Splits newline w l r → motive r → motive w) (w : List UInt8) : motive w := by
  induction size : w.length using Nat.strongRecOn generalizing w with
  | ind n ih =>
    rcases search_cases newline w with clean | ⟨s, tail, rfl, clean⟩ | ⟨l, r, split⟩
    · exact past w clean
    · exact last s tail (Clean.nul clean) (Clean.newline clean)
    · have length := split.length
      exact line w l r split (ih r.length (by omega) r rfl)

theorem beforeNul_line (h : Splits newline w l r) : beforeNul w = l ++ 10 :: beforeNul r := by
  rw [h.eq_newline, beforeNul_append_of_not_mem h.clean.nul]
  simp [beforeNul]

theorem nul_line (h : Splits newline w l r) : 0 ∈ w ↔ 0 ∈ r := by
  simp [h.eq_newline, h.clean.nul]

theorem linesFit_line (h : Splits newline w l r) :
    LinesFit w ↔ l.length = 1 ∨ Within Dest.size l ∧ LinesFit r := by
  have line := h.clean.newline
  rw [LinesFit, beforeNul_line h, headLines_line line, ended_line line, openLine_line line,
    nul_line h]
  by_cases one : l.length = 1
  · simp [one]
  · simp [one, LinesFit, and_assoc]

theorem linesFit_open (nul : 0 ∉ s) (h : 10 ∉ s) :
    LinesFit (s ++ 0 :: tail) ↔ named s = none := by
  rw [LinesFit, beforeNul_nul nul, headLines_open h, openLine_open h]
  simp [not_ended_open h]

theorem linesFit_past (h : Clean newline w) : LinesFit w := by
  have nul := Clean.nul h
  have text : beforeNul w = w := by simpa [beforeNul] using beforeNul_append_of_not_mem nul []
  rw [LinesFit, text, headLines_open (Clean.newline h)]
  simp [nul]

theorem openStart_line (h : Splits newline w l r) :
    openStart w = l.length + 1 + openStart r := by
  have short := openLine_length_le (beforeNul r)
  rw [openStart, beforeNul_line h, openLine_line h.clean.newline, openStart, List.length_append,
    List.length_cons]
  omega

theorem openStart_open (nul : 0 ∉ s) (h : 10 ∉ s) : openStart (s ++ 0 :: tail) = 0 := by
  rw [openStart, beforeNul_nul nul, openLine_open h, Nat.sub_self]

end condition

namespace Parse

def Contained (p : Parse) : Prop := ∀ k ∈ p.copies, k.InBounds

variable {p p' : Parse} {e : Int} {x : Bool} {k : Copy} {n : Nat} {pc : ParsePc}
  {s tail : List UInt8}

theorem get_copied {d : Dest} (bounds : k.InBounds) (ne : d ≠ k.dest) :
    (p.copied k n pc).conn.get d = p.conn.get d := by
  change (p.conn.toFields.strncpy _ _ _).get d = _
  obtain ⟨low, high⟩ := bounds
  rw [get_strncpy]
  rcases Dest.disjoint ne with before | behind
  · exact overwrite_before before
  · exact overwrite_behind (by omega)

theorem contained_logged (h : Contained p) : Contained (p.logged k) ↔ k.InBounds := by
  simp only [Contained, logged, List.forall_mem_append, List.forall_mem_singleton]
  exact and_iff_right h

theorem always_copy (hs : ∀ x, step e p x = some (p'.copy x k n pc)) (now : Contained p)
    (src : k.InBounds → k.count ≤ (p'.conn.querybuf.drop k.start).length) :
    Always (step e) Contained p ↔
      k.InBounds ∧ Always (step e) Contained (p'.copied k n pc) := by
  have returns (x) (bounds : k.InBounds) :
      p'.copy x k n pc = p'.copied k n pc := by
    have := k.dest.size_le_room
    exact copy_of_returns ⟨bounds.1, .inl (bounds.2.trans (by omega)), .inl (src bounds)⟩
  rw [always_iff, and_iff_right now]
  constructor
  · intro later
    have next := later true _ (hs _)
    have bounds : k.InBounds := next _ .start k (by simp)
    exact ⟨bounds, returns _ bounds ▸ next⟩
  · rintro ⟨bounds, later⟩ x t ht
    obtain rfl := Option.some.inj ((hs x).symm.trans ht)
    rwa [returns x bounds]

section lines

variable {l r : List UInt8}

theorem within_iff {hit : Dest × Nat} (some : named l = some hit) :
    Within Dest.size l ↔ (p.valueCopy l.length hit).InBounds := by
  rw [valueCopy_inBounds, Within, some]
  constructor
  · exact fun within => within _ rfl
  · rintro bounds value ⟨⟩
    exact bounds

theorem always_line (hp : p.pc = .head) (h : Splits newline p.conn.rest l r)
    (ne : l.length ≠ 1) (now : Contained p) : Always (step e) Contained p ↔
      Within Dest.size l ∧ Always (step e) Contained (p.afterLine l) := by
  have line (x) := step_line (e := e) (x := x) hp h ne
  unfold afterLine
  cases hit : named l with
  | none =>
    simp only [hit] at line
    have free : Within Dest.size l := fun value some => by cases hit.symm.trans some
    rw [always_iff_next line, and_iff_right now, and_iff_right free]
  | some hit' =>
    simp only [hit] at line
    rw [within_iff hit]
    refine always_copy line now fun bounds => ?_
    have length := h.length
    have low := (valueCopy_inBounds.mp bounds).1
    change (l.length - hit'.2 : Int) ≤
      (p.conn.querybuf.drop (p.conn.queryStartIndex + hit'.2)).length
    rw [WebConnection.rest, List.length_drop] at length
    rw [List.length_drop]
    omega

theorem contained_afterLine (now : Contained p) (h : Within Dest.size l) :
    Contained (p.afterLine l) := by
  rw [Contained, afterLine_copies, List.forall_mem_append]
  refine ⟨now, ?_⟩
  cases hit : named l with
  | none => simp
  | some hit' =>
    rw [Option.toList_some, List.map_singleton, List.forall_mem_singleton, valueCopy_inBounds]
    exact h _ hit

theorem within_of_fits (fits : LinesFit p.conn.rest) (h : Splits newline p.conn.rest l r)
    (ne : l.length ≠ 1) : Within Dest.size l ∧ LinesFit (p.afterLine l).conn.rest := by
  rw [afterLine_rest h]
  exact ((linesFit_line h).mp fits).resolve_left ne

theorem fits_of_always (hp : p.pc = .head) (low : e ≤ p.conn.queryStartIndex)
    (now : Contained p) (always : Always (step e) Contained p) : LinesFit p.conn.rest := by
  induction hr : p.conn.rest using search_induction generalizing p with
  | past w clean => exact linesFit_past clean
  | last s tail nul h =>
    rw [linesFit_open nul h]
    cases hit : named s with
    | none => rfl
    | some hit' =>
      have next := step_open (e := e) (x := true) hp nul h hr (by omega)
      simp only [hit] at next
      have copies := (always_iff.mp always).2 _ _ next _ .start
      rw [Contained, copy_copies, List.forall_mem_append, List.forall_mem_singleton] at copies
      have bounds := copies.2
      have count : (0 : Int) ≤ e - (p.conn.queryStartIndex + 1) - hit'.2 := bounds.1
      omega
  | line w l r split ih =>
    subst hr
    rw [linesFit_line split]
    by_cases one : l.length = 1
    · exact .inl one
    · obtain ⟨within, later⟩ := (always_line hp split one now).mp always
      refine .inr ⟨within, ih afterLine_pc ?_ (contained_afterLine now within) later
        (afterLine_rest split)⟩
      rw [afterLine_start]
      omega

theorem landing_head : p.landing e = .head ↔ 0 ≤ e ∧ e ≤ p.conn.querybuf.length := by
  unfold Parse.landing
  split
  case isTrue inside => exact iff_of_true rfl inside
  case isFalse outside => exact iff_of_false (by decide) outside

def NullFits (e : Int) (p : Parse) : Prop :=
  0 ∈ p.conn.rest → ¬ Ended (beforeNul p.conn.rest) →
    e ≠ p.conn.queryStartIndex + openStart p.conn.rest + 2 →
    p.landing e = .head → LinesFit (p.conn.querybuf.drop e.toNat)

theorem nullFits_afterLine (h : Splits newline p.conn.rest l r) (ne : l.length ≠ 1) :
    NullFits e (p.afterLine l) ↔ NullFits e p := by
  have block : Ended (beforeNul p.conn.rest) ↔ Ended (beforeNul r) := by
    rw [beforeNul_line h, ended_line h.clean.newline, or_iff_right ne]
  have index : ((p.conn.queryStartIndex + (l.length + 1) : Nat) + openStart r : Int) =
      p.conn.queryStartIndex + openStart p.conn.rest := by
    rw [openStart_line h]
    omega
  rw [NullFits, afterLine_rest h, afterLine_start, Parse.landing, afterLine_buf, ← nul_line h,
    ← block, index]
  rfl

theorem nullFits_of_always (hp : p.pc = .head) (fits : LinesFit p.conn.rest) (now : Contained p)
    (always : Always (step e) Contained p) : NullFits e p := by
  induction hr : p.conn.rest using search_induction generalizing p with
  | past w clean => exact fun nul => absurd (hr ▸ nul) clean.nul
  | last s tail nul h =>
    intro _ _ ne landing
    rw [hr, openStart_open nul h] at ne
    rw [hr, linesFit_open nul h] at fits
    have next := step_open (e := e) (x := true) hp nul h hr (by omega)
    simp only [fits, landing] at next
    refine fits_of_always (p := (p.worked none).jump e.toNat .head) rfl ?_ now
      ((always_iff.mp always).2 _ _ next)
    exact (Int.toNat_of_nonneg (landing_head.mp landing).1).ge
  | line w l r split ih =>
    subst hr
    by_cases one : l.length = 1
    · intro _ block
      rw [beforeNul_line split, ended_line split.clean.newline] at block
      exact absurd (.inl one) block
    · obtain ⟨within, later⟩ := (always_line hp split one now).mp always
      refine (nullFits_afterLine split one).mp ?_
      exact ih afterLine_pc (within_of_fits fits split one).2 (contained_afterLine now within) later
        (afterLine_rest split)

structure Fits (e : Int) (p : Parse) : Prop where
  pc : p.pc = .head
  lines : LinesFit p.conn.rest
  null : NullFits e p

theorem step_past (hp : p.pc = .head) (h : Clean newline p.conn.rest) :
    step e p x = some (p.goto .lost) := by
  have found : strpbrk newline p.conn.rest = .error .overrun := by
    simpa [strpbrk, Except.map] using strpbrk_append (t := []) h
  simp only [step, hp, head, found]

theorem Fits.afterLine (fits : Fits e p) (h : Splits newline p.conn.rest l r)
    (ne : l.length ≠ 1) : Fits e (p.afterLine l) :=
  ⟨afterLine_pc, (within_of_fits fits.lines h ne).2, (nullFits_afterLine h ne).mpr fits.null⟩

theorem Fits.null_step (fits : Fits e p) (nul : 0 ∉ s) (h : 10 ∉ s)
    (hr : p.conn.rest = s ++ 0 :: tail) : ∃ q, (∀ x, step e p x = some q) ∧
      q.copies = p.copies ∧ (Fits e q ∨ Stuck (step e) q) := by
  obtain ⟨pc, lines, null⟩ := fits
  rw [hr, linesFit_open nul h] at lines
  rw [NullFits, hr, beforeNul_nul nul, openStart_open nul h] at null
  by_cases one : e = p.conn.queryStartIndex + 2
  · exact ⟨_, fun x => step_open_one pc nul h hr one, rfl, .inr (stuck_iff.mpr (.inl rfl))⟩
  · have next (x) := step_open (x := x) pc nul h hr one
    simp only [lines] at next
    refine ⟨_, next, rfl, ?_⟩
    by_cases landing : p.landing e = .head
    · have spot := null (by simp) (not_ended_open h) (by omega) landing
      exact .inl ⟨landing, spot, fun _ _ _ _ => spot⟩
    · refine .inr (stuck_iff.mpr (.inr (.inr ?_)))
      exact if_neg (mt landing_head.mpr landing)

theorem fits_step (fits : Fits e p) (now : Contained p) (hs : step e p x = some p') :
    Contained p' ∧ (Fits e p' ∨ Stuck (step e) p') := by
  rcases search_cases newline p.conn.rest with past | ⟨s, tail, hr, clean⟩ | ⟨l, r, split⟩
  · obtain rfl := Option.some.inj ((step_past fits.pc past).symm.trans hs)
    exact ⟨now, .inr (stuck_iff.mpr (.inr (.inr rfl)))⟩
  · obtain ⟨q, next, copies, later⟩ := fits.null_step (Clean.nul clean) (Clean.newline clean) hr
    obtain rfl := Option.some.inj ((next x).symm.trans hs)
    exact ⟨by rwa [Contained, copies], later⟩
  · by_cases one : l.length = 1
    · obtain rfl := Option.some.inj ((step_last fits.pc split one).symm.trans hs)
      exact ⟨now, .inr (stuck_iff.mpr (.inl rfl))⟩
    · obtain ⟨within, -⟩ := within_of_fits fits.lines split one
      have next := step_line_of_returns (e := e) (x := x) fits.pc split one fun hit some =>
        ⟨(within hit some).1, .inl ((within hit some).2.trans
          (Nat.add_le_add_left hit.1.size_le_room _))⟩
      obtain rfl := Option.some.inj (next.symm.trans hs)
      exact ⟨contained_afterLine now within, .inl (fits.afterLine split one)⟩

theorem always_of_fits (fits : Fits e p) (now : Contained p) : Always (step e) Contained p := by
  intro q reach
  let I (q : Parse) := Contained q ∧ (Fits e q ∨ Stuck (step e) q)
  refine (reach.invariant (I := I) ⟨now, .inl fits⟩ ?_).1
  rintro q x t - ⟨contained, fits | stuck⟩ - hs
  · exact fits_step fits contained hs
  · cases (stuck x).symm.trans hs

/-- The copies stay in their fields wherever in memory the connection is. -/
def Safe (p : Parse) : Prop := ∀ e, Always (step e) Contained p

theorem safe_head (hp : p.pc = .head) (nul : 0 ∈ p.conn.rest) (now : Contained p) :
    Safe p ↔ HeadFits p.conn.querybuf p.conn.queryStartIndex := by
  change _ ↔ LinesFit p.conn.rest ∧ (Ended (beforeNul p.conn.rest) ∨
    ∀ e < p.conn.querybuf.length, e ≠ p.conn.queryStartIndex + openStart p.conn.rest + 2 →
      LinesFit (p.conn.querybuf.drop e))
  constructor
  · intro safe
    have lines := fits_of_always hp (Int.natCast_nonneg _) now (safe 0)
    refine ⟨lines, or_iff_not_imp_left.mpr fun block e inside ne => ?_⟩
    refine nullFits_of_always hp lines now (safe e) nul block (by omega) ?_
    exact landing_head.mpr ⟨Int.natCast_nonneg _, by omega⟩
  · rintro ⟨lines, later⟩ e
    refine always_of_fits ⟨hp, lines, fun _ block ne landing => ?_⟩ now
    obtain ⟨low, -⟩ := landing_head.mp landing
    by_cases inside : e.toNat < p.conn.querybuf.length
    · exact later.resolve_left block _ inside (by omega)
    · rw [List.drop_eq_nil_of_le (Nat.le_of_not_lt inside)]
      exact linesFit_past fun b hb => absurd hb List.not_mem_nil

theorem safe_returned (hs : ∀ e x, step e p x = some (p.goto .returned)) (now : Contained p) :
    Safe p := by
  intro e
  refine (always_iff_next (hs e)).mpr ⟨now, ?_⟩
  exact (stuck_iff.mpr (.inr (.inl rfl))).always_iff.mpr now

theorem safe_copy (hs : ∀ e x, step e p x = some (p'.copy x k n pc)) (now : Contained p)
    (src : k.InBounds → k.count ≤ (p'.conn.querybuf.drop k.start).length) :
    Safe p ↔ k.InBounds ∧ Safe (p'.copied k n pc) := by
  simp only [Safe, always_copy (hs _) now src, forall_and, forall_const]

end lines

section requestLine

variable {d : Dest}

structure TextAt (p : Parse) (s tail : List UInt8) : Prop where
  buf : p.conn.querybuf = s ++ 0 :: tail
  nul : 0 ∉ s
  inside : p.conn.queryStartIndex ≤ s.length

theorem TextAt.rest (h : TextAt p s tail) :
    p.conn.rest = s.drop p.conn.queryStartIndex ++ 0 :: tail := by
  rw [WebConnection.rest, h.buf, List.drop_append_of_le_length h.inside]

theorem strpbrk_text {accept : List UInt8} (nul : 0 ∉ s) :
    strpbrk accept (s ++ 0 :: tail) = .ok (s.findIdx? (· ∈ accept)) := by
  rw [strpbrk_eq (List.mem_append_right _ (List.mem_cons_self ..)), beforeNul_nul nul]

theorem contained_copied (now : Contained p) (bounds : k.InBounds) :
    Contained (p.copied k n pc) := (contained_logged now).mpr bounds

theorem TextAt.copied (h : TextAt p s tail) (inside : n ≤ s.length) :
    TextAt (p.copied k n pc) s tail := ⟨h.buf, h.nul, inside⟩

theorem safe_word {C : Nat → Prop} (h : TextAt p s tail)
    (hs : ∀ e x, step e p x = some (p.word x d pc)) (now : Contained p)
    (later : ∀ q, TextAt q s tail → q.pc = pc → Contained q →
      (Safe q ↔ C q.conn.queryStartIndex)) :
    Safe p ↔ WordFits d.size s C p.conn.queryStartIndex := by
  unfold WordFits
  have found : strpbrk blanks p.conn.rest =
      .ok ((s.drop p.conn.queryStartIndex).findIdx? (· ∈ blanks)) := by
    rw [h.rest]
    exact strpbrk_text fun mem => h.nul (List.mem_of_mem_drop mem)
  simp only [word, found] at hs
  cases hit : (s.drop p.conn.queryStartIndex).findIdx? (· ∈ blanks) with
  | none =>
    simp only [hit] at hs
    exact iff_of_true (safe_returned hs now) (by simp)
  | some n =>
    simp only [hit] at hs
    have inside := (List.findIdx?_eq_some_iff_findIdx_eq.mp hit).1
    rw [List.length_drop] at inside
    have bounds : (⟨d, p.conn.queryStartIndex, n⟩ : Copy).InBounds ↔ n ≤ d.size := by
      simp [Copy.InBounds]
    rw [safe_copy hs now fun _ => ?_, bounds]
    · simp only [Option.mem_some_iff, forall_eq']
      refine and_congr_right fun fits => ?_
      exact later _ (h.copied (by omega)) rfl (contained_copied now (bounds.mpr fits))
    · simp only [h.buf, List.length_drop, List.length_append]
      omega

theorem safe_version (h : TextAt p s tail) (hp : p.pc = .version) (now : Contained p) :
    Safe p ↔ VersionFits p.conn.querybuf p.conn.queryStartIndex := by
  have text : beforeNul p.conn.querybuf = s := by rw [h.buf, beforeNul_nul h.nul]
  have found : strpbrk newline p.conn.querybuf = .ok (s.findIdx? (· ∈ newline)) := by
    rw [h.buf]
    exact strpbrk_text h.nul
  have hs (e x) : step e p x = some (p.version x) := by rw [step, hp]
  rw [VersionFits, text]
  simp only [version, found] at hs
  cases hit : s.findIdx? (· ∈ newline) with
  | none =>
    simp only [hit] at hs
    exact iff_of_true (safe_returned hs now) (by simp)
  | some pos =>
    simp only [hit] at hs
    have inside := (List.findIdx?_eq_some_iff_findIdx_eq.mp hit).1
    have bounds : (⟨.version, p.conn.queryStartIndex, pos - p.conn.queryStartIndex⟩ :
        Copy).InBounds ↔ p.conn.queryStartIndex ≤ pos ∧ pos ≤ p.conn.queryStartIndex + 16 := by
      simp only [Copy.InBounds, Dest.size]
      omega
    rw [safe_copy hs now fun _ => ?_, bounds, and_assoc]
    · simp only [Option.mem_some_iff, forall_eq']
      refine and_congr_right fun low => and_congr_right fun high => ?_
      refine safe_head rfl ?_ (contained_copied now (bounds.mpr ⟨low, high⟩))
      rw [(h.copied inside).rest]
      exact List.mem_append_right _ (List.mem_cons_self ..)
    · simp only [h.buf, List.length_drop, List.length_append]
      omega

/-- All that a call copies stays in its fields, wherever in memory the connection is, exactly if the
pieces of the text fit. -/
theorem contained_iff {c : WebConnection} (nul : 0 ∈ c.querybuf)
    (inside : c.queryStartIndex ≤ (beforeNul c.querybuf).length) :
    (∀ e p, Reach (step e) (start c) p → ∀ k ∈ p.copies, k.InBounds) ↔
      CopiesFit c.querybuf c.queryStartIndex := by
  obtain ⟨s, tail, buf, hs⟩ := List.eq_append_cons_of_mem nul
  have text : beforeNul c.querybuf = s := by rw [buf, beforeNul_nul hs]
  rw [text] at inside
  have first : TextAt (start c) s tail := ⟨buf, hs, inside⟩
  rw [CopiesFit, text]
  refine safe_word first (fun e x => rfl) (by simp [Contained, start]) fun p hp method now => ?_
  refine safe_word hp (fun e x => by rw [step, method]) now fun q hq uri now => ?_
  have same : c.querybuf = q.conn.querybuf := by rw [buf, hq.buf]
  rw [same]
  exact safe_version hq uri now

theorem contained_of_plain : Safe (start plain) :=
  (contained_iff (by decide) (by decide)).mpr (by decide +kernel)

/-- A method of nine bytes. -/
theorem not_contained : ¬ ∀ c : WebConnection, 0 ∈ c.querybuf →
    c.queryStartIndex ≤ (beforeNul c.querybuf).length →
    ∀ e p, Reach (step e) (start c) p → ∀ k ∈ p.copies, k.InBounds := by
  intro all
  obtain ⟨p, reach, long⟩ := exists_reach (step 0)
    (start (.accepted .zero (List.replicate 9 65 ++ 32 :: List.replicate 1014 0))) [true]
    (fun p => decide (⟨.method, 0, 9⟩ ∈ p.copies)) (by decide +kernel)
  have bounds := all _ (by decide +kernel) (by decide +kernel) 0 p reach _ (of_decide_eq_true long)
  exact absurd bounds (by decide)

end requestLine

end Parse

end Leano.Epoll
