import Leano.Epoll.Leftover
import Leano.Lib.Halting

/-! The request parser search by search. It goes on behind a copy that leaves the connection and
behind a search that fails in `process_head`, where `processRequestLine` ends with a fault. -/

namespace Leano.Epoll

open Leano.Lib

structure Copy where
  dest : Dest
  start : Nat
  count : Int
  deriving DecidableEq

namespace Copy

def InBounds (k : Copy) : Prop := 0 ≤ k.count ∧ k.count ≤ k.dest.size

instance (k : Copy) : Decidable k.InBounds :=
  inferInstanceAs (Decidable (0 ≤ k.count ∧ k.count ≤ k.dest.size))

/-- `x` is whether a copy that runs out of the connection returns. As a `size_t` a negative count is
larger than any memory. -/
def Returns (k : Copy) (x : Bool) (src : List UInt8) : Prop :=
  0 ≤ k.count ∧ (k.count ≤ k.dest.room ∨ x = true) ∧ (k.count ≤ src.length ∨ 0 ∈ src)

instance (k : Copy) (x : Bool) (src : List UInt8) : Decidable (k.Returns x src) :=
  inferInstanceAs (Decidable (_ ∧ _ ∧ _))

end Copy

inductive ParsePc where
  | method
  | uri
  | version
  | head
  | body
  | returned
  | lost
  deriving DecidableEq

/-- A call of `process_request_line`, with the copies it has made and the header lines it has
worked on; `none` stands for what it takes for one where `strpbrk` has returned NULL. -/
structure Parse where
  conn : WebConnection
  pc : ParsePc
  copies : List Copy
  lines : List (Option (List UInt8))

namespace Parse

def start (c : WebConnection) : Parse := ⟨c, .method, [], []⟩

def goto (p : Parse) (pc : ParsePc) : Parse := { p with pc := pc }

def jump (p : Parse) (start : Nat) (pc : ParsePc) : Parse :=
  { p with conn := { p.conn with queryStartIndex := start }, pc := pc }

def logged (p : Parse) (k : Copy) : Parse := { p with copies := p.copies ++ [k] }

def written (p : Parse) (k : Copy) : Parse :=
  { p with conn := { p.conn with
      toFields := p.conn.strncpy k.dest (p.conn.querybuf.drop k.start) k.count.toNat } }

def copied (p : Parse) (k : Copy) (start : Nat) (pc : ParsePc) : Parse :=
  ((p.logged k).written k).jump start pc

def copy (p : Parse) (x : Bool) (k : Copy) (start : Nat) (pc : ParsePc) : Parse :=
  if k.Returns x (p.conn.querybuf.drop k.start) then p.copied k start pc
  else (p.logged k).goto .lost

def word (p : Parse) (x : Bool) (dest : Dest) (next : ParsePc) : Parse :=
  match strpbrk blanks p.conn.rest with
  | .error _ => p.goto .lost
  | .ok none => p.goto .returned
  | .ok (some len) =>
    p.copy x ⟨dest, p.conn.queryStartIndex, len⟩ (p.conn.queryStartIndex + (len + 1)) next

def version (p : Parse) (x : Bool) : Parse :=
  match strpbrk newline p.conn.querybuf with
  | .error _ => p.goto .lost
  | .ok none => p.goto .returned
  | .ok (some pos) =>
    p.copy x ⟨.version, p.conn.queryStartIndex, pos - p.conn.queryStartIndex⟩ (pos + 1) .head

def worked (p : Parse) (line : Option (List UInt8)) : Parse :=
  { p with lines := p.lines ++ [line] }

def header (p : Parse) (x : Bool) (len : Int) (next : Nat) (pc : ParsePc) : Parse :=
  match headerDest p.conn.rest with
  | .error _ => p.goto .lost
  | .ok none => p.jump next pc
  | .ok (some (dest, off)) => p.copy x ⟨dest, p.conn.queryStartIndex + off, len - off⟩ next pc

def landing (p : Parse) (next : Int) : ParsePc :=
  if 0 ≤ next ∧ next ≤ p.conn.querybuf.length then .head else .lost

/-- A round of the loop of `process_head`. It does not test for NULL: `len` is then NULL less
`querybuf + query_start_index`, and `e` the index that the loop goes on with. -/
def head (e : Int) (p : Parse) (x : Bool) : Parse :=
  match strpbrk newline p.conn.rest with
  | .error _ => p.goto .lost
  | .ok none =>
    let len := e - (p.conn.queryStartIndex + 1)
    if len = 1 then (p.worked none).jump e.toNat .body
    else (p.worked none).header x len e.toNat (p.landing e)
  | .ok (some len) =>
    if len = 1 then p.jump (p.conn.queryStartIndex + 2) .body
    else
      (p.worked (p.conn.rest.take len)).header x len (p.conn.queryStartIndex + (len + 1)) .head

/-- `e` is `1 - querybuf` as an `int`. -/
def step (e : Int) (p : Parse) (x : Bool) : Option Parse :=
  match p.pc with
  | .method => some (p.word x .method .uri)
  | .uri => some (p.word x .uri .version)
  | .version => some (p.version x)
  | .head => some (p.head e x)
  | .body => none
  | .returned => none
  | .lost => none

end Parse

namespace Parse

variable {p q : Parse} {e : Int} {x : Bool}

theorem stuck_iff : Stuck (step e) p ↔ p.pc = .body ∨ p.pc = .returned ∨ p.pc = .lost := by
  unfold Stuck step
  cases p.pc <;> simp

section copy

variable {k : Copy} {s : Nat} {pc : ParsePc}

@[simp] theorem copy_copies : (p.copy x k s pc).copies = p.copies ++ [k] := by
  unfold copy
  split <;> rfl

@[simp] theorem copy_lines : (p.copy x k s pc).lines = p.lines := by
  unfold copy
  split <;> rfl

theorem copy_of_returns (h : k.Returns x (p.conn.querybuf.drop k.start)) :
    p.copy x k s pc = p.copied k s pc := if_pos h

theorem returns_of_copy (h : (p.copy x k s pc).pc ≠ .lost) :
    k.Returns x (p.conn.querybuf.drop k.start) := by
  unfold copy at h
  split at h
  case isTrue returns => exact returns
  case isFalse => exact absurd rfl h

end copy

def resume (p : Parse) : Except Fault WebConnection :=
  match p.pc with
  | .method => processRequestLine p.conn
  | .uri => requestUri p.conn
  | .version => requestVersion p.conn
  | .head => processHead p.conn
  | .body => .ok (processBody p.conn)
  | .returned => .ok p.conn
  | .lost => .error .overrun

section resume

variable {k : Copy} {s n m : Nat} {pc : ParsePc} {d : Dest}

theorem copy_of_room (room : k.count ≤ k.dest.room) (kept : (p.copy x k s pc).pc ≠ .lost) :
    ∃ f, p.conn.copy k.dest (p.conn.querybuf.drop k.start) k.count = .ok f ∧ p.copy x k s pc =
      ⟨{ p.conn with toFields := f, queryStartIndex := s }, pc, p.copies ++ [k], p.lines⟩ := by
  have returns := returns_of_copy kept
  exact ⟨_, copy_of_fits returns.1 room returns.2.2, copy_of_returns returns⟩

theorem requestWord_found {next : WebConnection → Except Fault WebConnection}
    {c : WebConnection} {len : Nat} {f : Fields}
    (found : strpbrk blanks c.rest = .ok (some len)) (hf : c.copy d c.rest len = .ok f) :
    requestWord d next c = next ({ c with toFields := f }.advance len) := by
  rw [requestWord, found, ok_bind]
  simp only
  rw [hf, ok_bind]

theorem headerLines_fuel {f : Fields} {line : List UInt8} (hn : line.length < n)
    (hm : line.length < m) : headerLines n f line = headerLines m f line := by
  induction n generalizing m f line with
  | zero => cases hn
  | succ n ih =>
    obtain ⟨m, rfl⟩ : ∃ k, m = k + 1 := ⟨m - 1, by omega⟩
    cases line with
    | nil => rfl
    | cons b line =>
      rw [headerLines, headerLines]
      refine bind_congr fun found => ?_
      cases found with
      | none => rfl
      | some len =>
        have shorter : ((b :: line).drop (len + 1)).length ≤ line.length := by simp
        rw [List.length_cons] at hn hm
        by_cases one : len = 1
        · simp [one]
        · simp only [one, if_false]
          exact bind_congr fun f' => ih (by omega) (by omega)

theorem resume_word {next : WebConnection → Except Fault WebConnection}
    (later : ∀ q : Parse, q.pc = pc → q.resume = next q.conn)
    (room : ∀ k ∈ (p.word x d pc).copies, k.count ≤ k.dest.room)
    (kept : (p.word x d pc).pc ≠ .lost) :
    requestWord d next p.conn = (p.word x d pc).resume := by
  unfold word at room kept ⊢
  cases found : strpbrk blanks p.conn.rest with
  | error e => simp [found, goto] at kept
  | ok hit =>
    cases hit with
    | none => simp only [requestWord, found, ok_bind]; rfl
    | some len =>
      simp only [found] at room kept ⊢
      obtain ⟨f, hf, copied⟩ := copy_of_room (room _ (by simp)) kept
      rw [requestWord_found found hf, copied, later _ rfl]
      rfl

theorem resume_version (room : ∀ k ∈ (p.version x).copies, k.count ≤ k.dest.room)
    (kept : (p.version x).pc ≠ .lost) : requestVersion p.conn = (p.version x).resume := by
  unfold version at room kept ⊢
  cases found : strpbrk newline p.conn.querybuf with
  | error e => simp [found, goto] at kept
  | ok hit =>
    cases hit with
    | none => simp only [requestVersion, found, ok_bind]; rfl
    | some pos =>
      simp only [found] at room kept ⊢
      obtain ⟨f, hf, copied⟩ := copy_of_room (room _ (by simp)) kept
      have hf : p.conn.copy .version p.conn.rest (pos - p.conn.queryStartIndex) = .ok f := hf
      rw [copied, requestVersion, found, ok_bind]
      simp only
      rw [hf]
      rfl

theorem processHead_line {c : WebConnection} {f : Fields} {len : Nat}
    (found : strpbrk newline c.rest = .ok (some len)) (ne : len ≠ 1)
    (hf : headerLine c.toFields c.rest len = .ok f) :
    processHead c =
      processHead { c with toFields := f, queryStartIndex := c.queryStartIndex + (len + 1) } := by
  have behind : c.rest.drop (len + 1) = c.querybuf.drop (c.queryStartIndex + (len + 1)) := by
    rw [WebConnection.rest, List.drop_drop]
  have pos : c.rest ≠ [] := by
    intro nil
    rw [nil] at found
    cases found
  have shorter : (c.rest.drop (len + 1)).length < c.rest.length := by
    have := List.length_pos_of_ne_nil pos
    rw [List.length_drop]
    omega
  rw [processHead, headerLines, found, ok_bind]
  simp only [ne, if_false]
  rw [hf, ok_bind, headerLines_fuel shorter (Nat.lt_succ_self _), behind]
  rfl

theorem resume_header {c : WebConnection} {len : Nat} (same : p.conn = c)
    (found : strpbrk newline c.rest = .ok (some len)) (ne : len ≠ 1)
    (room : ∀ k ∈ (p.header x len (c.queryStartIndex + (len + 1)) .head).copies,
      k.count ≤ k.dest.room)
    (kept : (p.header x len (c.queryStartIndex + (len + 1)) .head).pc ≠ .lost) :
    processHead c = (p.header x len (c.queryStartIndex + (len + 1)) .head).resume := by
  subst same
  unfold header at room kept ⊢
  cases dest : headerDest p.conn.rest with
  | error e => simp [dest, goto] at kept
  | ok hit =>
    cases hit with
    | none =>
      have line : headerLine p.conn.toFields p.conn.rest len = .ok p.conn.toFields := by
        rw [headerLine, dest]
        rfl
      exact processHead_line found ne line
    | some hit =>
      obtain ⟨d, off⟩ := hit
      simp only [dest] at room kept ⊢
      obtain ⟨f, hf, copied⟩ := copy_of_room (room _ (by simp)) kept
      rw [← List.drop_drop] at hf
      have line : headerLine p.conn.toFields p.conn.rest len = .ok f := by
        rw [headerLine, dest]
        exact hf
      rw [copied]
      exact processHead_line found ne line

theorem header_lines {len : Int} : (p.header x len n pc).lines = p.lines := by
  unfold header
  split
  · rfl
  · rfl
  · exact copy_lines

theorem resume_head (room : ∀ k ∈ (p.head e x).copies, k.count ≤ k.dest.room)
    (kept : (p.head e x).pc ≠ .lost) (hits : none ∉ (p.head e x).lines) :
    processHead p.conn = (p.head e x).resume := by
  unfold head at room kept hits ⊢
  cases found : strpbrk newline p.conn.rest with
  | error e => simp [found, goto] at kept
  | ok hit =>
    cases hit with
    | none =>
      simp only [found] at hits
      split at hits
      · simp [jump, worked] at hits
      · simp [header_lines, worked] at hits
    | some len =>
      simp only [found] at room kept ⊢
      by_cases one : len = 1
      · rw [processHead, headerLines, found, ok_bind]
        simp only [one, if_true]
        rfl
      · simp only [one, if_false] at room kept ⊢
        exact resume_header rfl found one room kept

theorem resume_of_step (h : step e p x = some q) (room : ∀ k ∈ q.copies, k.count ≤ k.dest.room)
    (kept : q.pc ≠ .lost) (hits : none ∉ q.lines) : p.resume = q.resume := by
  unfold step at h
  unfold resume
  cases pc : p.pc <;> simp only [pc] at h ⊢
  case method =>
    cases h
    exact resume_word (fun q hq => by rw [resume, hq]) room kept
  case uri =>
    cases h
    exact resume_word (fun q hq => by rw [resume, hq]) room kept
  case version =>
    cases h
    exact resume_version room kept
  case head =>
    cases h
    exact resume_head room kept hits
  all_goals cases h

structure Grows (p q : Parse) : Prop where
  copies : p.copies <+: q.copies
  lines : p.lines <+: q.lines
  buf : q.conn.querybuf = p.conn.querybuf
  last : q.conn.queryEndIndex = p.conn.queryEndIndex

theorem Grows.refl (p : Parse) : Grows p p := ⟨List.prefix_rfl, List.prefix_rfl, rfl, rfl⟩

theorem Grows.trans {t : Parse} (h : Grows p q) (k : Grows q t) : Grows p t :=
  ⟨h.copies.trans k.copies, h.lines.trans k.lines, k.buf.trans h.buf, k.last.trans h.last⟩

theorem Grows.goto : Grows p (p.goto pc) := ⟨List.prefix_rfl, List.prefix_rfl, rfl, rfl⟩

theorem Grows.jump : Grows p (p.jump s pc) := ⟨List.prefix_rfl, List.prefix_rfl, rfl, rfl⟩

theorem Grows.worked {line : Option (List UInt8)} : Grows p (p.worked line) :=
  ⟨List.prefix_rfl, List.prefix_append _ _, rfl, rfl⟩

theorem Grows.copy : Grows p (p.copy x k s pc) := by
  unfold Parse.copy
  split
  · exact ⟨List.prefix_append _ _, List.prefix_rfl, rfl, rfl⟩
  · exact ⟨List.prefix_append _ _, List.prefix_rfl, rfl, rfl⟩

theorem Grows.word : Grows p (p.word x d pc) := by
  unfold Parse.word
  split
  · exact .goto
  · exact .goto
  · exact .copy

theorem Grows.version : Grows p (p.version x) := by
  unfold Parse.version
  split
  · exact .goto
  · exact .goto
  · exact .copy

theorem Grows.header {len : Int} : Grows p (p.header x len n pc) := by
  unfold Parse.header
  split
  · exact .goto
  · exact .jump
  · exact .copy

theorem Grows.head : Grows p (p.head e x) := by
  unfold Parse.head
  split
  · exact .goto
  · dsimp only
    split
    · exact worked.trans .jump
    · exact worked.trans .header
  · split
    · exact .jump
    · exact worked.trans .header

theorem grows_of_step (h : step e p x = some q) : Grows p q := by
  unfold step at h
  cases pc : p.pc <;> simp only [pc] at h <;> cases h
  case method => exact .word
  case uri => exact .word
  case version => exact .version
  case head => exact .head

theorem grows_of_reach (h : Reach (step e) p q) : Grows p q := by
  induction h with
  | start => exact .refl _
  | next _ _ hs ih => exact ih.trans (grows_of_step hs)

/-- While its copies stay in the connection and its searches for a newline hit, the run computes
what `processRequestLine` does. -/
theorem resume_of_reach (h : Reach (step e) p q) (room : ∀ k ∈ q.copies, k.count ≤ k.dest.room)
    (kept : q.pc ≠ .lost) (hits : none ∉ q.lines) : p.resume = q.resume := by
  induction h with
  | start => rfl
  | @next q x t hr _ hs ih =>
    have before : q.pc ≠ .lost := by
      intro lost
      cases (stuck_iff.mpr (.inr (.inr lost)) x).symm.trans hs
    obtain ⟨copies, lines, -⟩ := grows_of_step hs
    rw [ih (fun k hk => room k (copies.subset hk)) before fun mem => hits (lines.subset mem)]
    exact resume_of_step hs room kept hits

end resume

end Parse

end Leano.Epoll
