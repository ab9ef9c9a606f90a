import Leano.Epoll.HeaderLines

namespace Leano.Epoll

open Leano.Lib

structure RequestLine (buf method uri version rest : List UInt8) : Prop where
  split : ∃ b ∈ blanks, ∃ b' ∈ blanks,
    buf = method ++ b :: (uri ++ b' :: (version ++ 10 :: rest))
  method : Clean blanks method ∧ 10 ∉ method
  uri : Clean blanks uri ∧ 10 ∉ uri
  version : Clean newline version

theorem ne_of_blank {b : UInt8} (hb : b ∈ blanks) : 0 ≠ b ∧ 10 ≠ b := by
  rcases List.mem_pair.mp hb with rfl | rfl <;> decide

theorem RequestLine.first {buf method uri version rest : List UInt8}
    (h : RequestLine buf method uri version rest) :
    ∃ line, buf = line ++ 10 :: rest ∧ 0 ∉ line ∧ 10 ∉ line := by
  obtain ⟨⟨b, hb, b', hb', rfl⟩, ⟨cleanMethod, noMethod⟩, ⟨cleanUri, noUri⟩, clean⟩ := h
  refine ⟨method ++ b :: (uri ++ b' :: version), by simp, ?_, ?_⟩
  · simp [cleanMethod.nul, cleanUri.nul, clean.nul, (ne_of_blank hb).1, (ne_of_blank hb').1]
  · simp [noMethod, noUri, clean.newline, (ne_of_blank hb).2, (ne_of_blank hb').2]

theorem splits_of_strpbrk {accept s : List UInt8} {n : Nat}
    (h : strpbrk accept s = .ok (some n)) : ∃ w r, Splits accept s w r ∧ w.length = n := by
  rcases search_cases accept s with clean | stops | ⟨w, r, hs⟩
  · have missed := strpbrk_append (t := []) clean
    rw [List.append_nil, h] at missed
    cases missed
  · have missed := stops.strpbrk []
    rw [List.append_nil, h] at missed
    cases missed
  · have hit := hs.found
    rw [h] at hit
    exact ⟨w, r, hs, (Option.some.inj (Except.ok.inj hit)).symm⟩

theorem requestLine_of_splits {buf method uri rest line r r' : List UInt8}
    (hm : Splits blanks buf method r) (hu : Splits blanks r uri r')
    (hv : Splits newline buf line rest)
    (behind : method.length + 1 + (uri.length + 1) ≤ line.length) :
    ∃ version, RequestLine buf method uri version rest ∧
      line.length = method.length + 1 + (uri.length + 1) + version.length := by
  obtain ⟨b, hb, -, rfl, cleanMethod⟩ := hm
  obtain ⟨b', hb', -, rfl, cleanUri⟩ := hu
  have cut : method ++ b :: (uri ++ b' :: r') = line ++ 10 :: rest := hv.eq_newline
  have front : method ++ b :: (uri ++ b' :: r') = (method ++ b :: (uri ++ [b'])) ++ r' := by simp
  obtain ⟨version, rfl⟩ : method ++ b :: (uri ++ [b']) <+: line := by
    refine List.prefix_of_prefix_length_le ⟨r', front.symm.trans cut⟩
      (List.prefix_append line (10 :: rest)) ?_
    simp only [List.length_append, List.length_cons, List.length_nil] at behind ⊢
    omega
  have tail : r' = version ++ 10 :: rest := by simpa using cut
  have noNewline {part : List UInt8} (sub : part ⊆ method ++ b :: (uri ++ [b']) ++ version) :
      10 ∉ part := fun mem => hv.clean.newline (sub mem)
  refine ⟨version, ⟨⟨b, hb, b', hb', by rw [tail]⟩, ⟨cleanMethod, noNewline ?_⟩,
    ⟨cleanUri, noNewline ?_⟩, fun byte mem => hv.clean byte ?_⟩, ?_⟩
  · intro byte mem
    simp [mem]
  · intro byte mem
    simp [mem]
  · simp [mem]
  · simp only [List.length_append, List.length_cons, List.length_nil]
    omega

namespace Parse

variable {p q : Parse} {e : Int} {x : Bool} {c : WebConnection}

theorem copied_of_word {d : Dest} {pc : ParsePc} (lost : pc ≠ .lost) (returned : pc ≠ .returned)
    (h : (p.word x d pc).pc = pc) : ∃ w r, Splits blanks p.conn.rest w r ∧
      p.word x d pc = p.copied ⟨d, p.conn.queryStartIndex, w.length⟩
        (p.conn.queryStartIndex + (w.length + 1)) pc := by
  unfold word at h ⊢
  cases found : strpbrk blanks p.conn.rest with
  | error e => simp only [found] at h; exact absurd h.symm lost
  | ok hit =>
    cases hit with
    | none => simp only [found] at h; exact absurd h.symm returned
    | some n =>
      simp only [found] at h ⊢
      obtain ⟨w, r, hs, rfl⟩ := splits_of_strpbrk found
      exact ⟨w, r, hs, copy_of_returns (returns_of_copy (h.trans_ne lost))⟩

theorem copied_of_version (h : (p.version x).pc = .head) :
    ∃ w r, Splits newline p.conn.querybuf w r ∧ p.conn.queryStartIndex ≤ w.length ∧
      p.version x = p.copied ⟨.version, p.conn.queryStartIndex,
        w.length - p.conn.queryStartIndex⟩ (w.length + 1) .head := by
  unfold version at h ⊢
  cases found : strpbrk newline p.conn.querybuf with
  | error e => simp only [found] at h; cases h
  | ok hit =>
    cases hit with
    | none => simp only [found] at h; cases h
    | some n =>
      simp only [found] at h ⊢
      obtain ⟨w, r, hs, rfl⟩ := splits_of_strpbrk found
      have returns := returns_of_copy (h.trans_ne (by decide))
      have low : (0 : Int) ≤ w.length - p.conn.queryStartIndex := returns.1
      exact ⟨w, r, hs, by omega, copy_of_returns returns⟩

def lineCopies (method uri version : List UInt8) : List Copy :=
  [⟨.method, 0, method.length⟩, ⟨.uri, method.length + 1, uri.length⟩,
    ⟨.version, method.length + 1 + (uri.length + 1), version.length⟩]

def Found (c : WebConnection) (p : Parse) : Prop :=
  match p.pc with
  | .method => p = start c
  | .uri => p.lines = [] ∧ ∃ method r, Splits blanks c.querybuf method r ∧
      p.conn.queryStartIndex = method.length + 1 ∧ p.copies = (lineCopies method [] []).take 1
  | .version => p.lines = [] ∧ ∃ method r uri r', Splits blanks c.querybuf method r ∧
      Splits blanks r uri r' ∧
      p.conn.queryStartIndex = method.length + 1 + (uri.length + 1) ∧
      p.copies = (lineCopies method uri []).take 2
  | .head => p.lines = [] → ∃ method uri version rest,
      RequestLine c.querybuf method uri version rest ∧ p.conn.rest = rest ∧
      p.copies = lineCopies method uri version
  | _ => True

theorem found_of_ended (h : p.pc = .body ∨ p.pc = .returned ∨ p.pc = .lost) : Found c p := by
  unfold Found
  rcases h with h | h | h <;> rw [h] <;> trivial

theorem copy_pc {k : Copy} {n : Nat} {pc : ParsePc} :
    (p.copy x k n pc).pc = pc ∨ (p.copy x k n pc).pc = .lost := by
  unfold copy
  split
  · exact .inl rfl
  · exact .inr rfl

theorem word_pc (p : Parse) (x : Bool) (d : Dest) (pc : ParsePc) :
    (p.word x d pc).pc = pc ∨ (p.word x d pc).pc = .returned ∨ (p.word x d pc).pc = .lost := by
  unfold word
  split
  · exact .inr (.inr rfl)
  · exact .inr (.inl rfl)
  · exact copy_pc.imp_right .inr

theorem version_pc : (p.version x).pc = .head ∨ (p.version x).pc = .returned ∨
    (p.version x).pc = .lost := by
  unfold version
  split
  · exact .inr (.inr rfl)
  · exact .inr (.inl rfl)
  · exact copy_pc.imp_right .inr

theorem header_pc {len : Int} {n : Nat} {pc : ParsePc} :
    (p.header x len n pc).pc = pc ∨ (p.header x len n pc).pc = .lost := by
  unfold header
  split
  · exact .inr rfl
  · exact .inl rfl
  · exact copy_pc

theorem head_pc : (p.head e x).pc = .body ∨ (p.head e x).pc = .lost ∨
    (p.head e x).pc = .head ∧ (p.head e x).lines ≠ [] := by
  have worked {line len n pc} : ((p.worked line).header x len n pc).lines ≠ [] := by
    rw [header_lines]
    simp [worked]
  unfold head
  split
  · exact .inr (.inl rfl)
  · dsimp only
    split
    · exact .inl rfl
    · have landing : p.landing e = .head ∨ p.landing e = .lost := by
        unfold landing
        split
        · exact .inl rfl
        · exact .inr rfl
      rcases header_pc with next | lost
      · rcases landing with head | lost
        · exact .inr (.inr ⟨next.trans head, worked⟩)
        · exact .inr (.inl (next.trans lost))
      · exact .inr (.inl lost)
  · split
    · exact .inl rfl
    · exact header_pc.elim (fun next => .inr (.inr ⟨next, worked⟩)) fun lost => .inr (.inl lost)

section step

variable (hc : c.queryStartIndex = 0) (buf : p.conn.querybuf = c.querybuf) (found : Found c p)
include buf found

include hc in
theorem found_of_method (pc : p.pc = .method) : Found c (p.word x .method .uri) := by
  rcases word_pc p x .method .uri with uri | ended
  · obtain ⟨w, r, hs, eq⟩ := copied_of_word (by decide) (by decide) uri
    obtain rfl : p = start c := by simpa only [Found, pc] using found
    have zero : (start c).conn.queryStartIndex = 0 := hc
    rw [WebConnection.rest, zero, List.drop_zero] at hs
    rw [eq, zero]
    exact ⟨rfl, w, r, hs, Nat.zero_add _, rfl⟩
  · exact found_of_ended (.inr ended)

theorem found_of_uri (pc : p.pc = .uri) : Found c (p.word x .uri .version) := by
  rcases word_pc p x .uri .version with version | ended
  · obtain ⟨w, r, hs, eq⟩ := copied_of_word (by decide) (by decide) version
    simp only [Found, pc] at found
    obtain ⟨lines, method, r', hm, start, copies⟩ := found
    have behind := hm.behind
    rw [← start, ← buf] at behind
    rw [WebConnection.rest, behind] at hs
    rw [eq]
    refine ⟨lines, method, r', w, r, hm, hs, congrArg (· + (w.length + 1)) start, ?_⟩
    change p.copies ++ _ = _
    rw [copies, start]
    rfl
  · exact found_of_ended (.inr ended)

theorem found_of_version (pc : p.pc = .version) : Found c (p.version x) := by
  rcases version_pc (p := p) (x := x) with head | ended
  · obtain ⟨w, r, hs, low, eq⟩ := copied_of_version head
    simp only [Found, pc] at found
    obtain ⟨lines, method, r', uri, r'', hm, hu, start, copies⟩ := found
    have behind := hs.behind
    rw [start] at low
    rw [buf] at hs
    obtain ⟨version, line, length⟩ := requestLine_of_splits hm hu hs low
    rw [eq]
    refine fun _ => ⟨method, uri, version, r, line, behind, ?_⟩
    change p.copies ++ _ = _
    rw [copies, start, length]
    simp [lineCopies]
  · exact found_of_ended (.inr ended)

end step

theorem found_of_head : Found c (p.head e x) := by
  rcases head_pc (p := p) (e := e) (x := x) with body | lost | ⟨next, lines⟩
  · exact found_of_ended (.inl body)
  · exact found_of_ended (.inr (.inr lost))
  · simp only [Found, next]
    exact fun nil => absurd nil lines

theorem found_of_reach (h : Reach (step e) (start c) p) (hc : c.queryStartIndex = 0) :
    Found c p := by
  refine h.invariant rfl fun q x t reach found _ hs => ?_
  have buf := (grows_of_reach reach).buf
  unfold step at hs
  cases pc : q.pc <;> simp only [pc] at hs <;> cases hs
  case method => exact found_of_method hc buf found pc
  case uri => exact found_of_uri buf found pc
  case version => exact found_of_version buf found pc
  case head => exact found_of_head

/-- What `process_request_line` calls `process_head` for starts with a request line. -/
theorem requestLine_of_head (h : Reach (step e) (start c) p) (hc : c.queryStartIndex = 0)
    (hp : p.pc = .head) (call : p.lines = []) :
    ∃ method uri version rest, RequestLine c.querybuf method uri version rest ∧
      p.conn.rest = rest ∧ p.copies = lineCopies method uri version := by
  have found := found_of_reach h hc
  simp only [Found, hp] at found
  exact found call

def plain : WebConnection :=
  .accepted .zero (['G', 'E', 'T', ' ', '/', ' ', 'H', 'T', 'T', 'P', '/', '1', '.', '1', '\r',
    '\n', 'H', 'o', 's', 't', ':', ' ', 'a', '\r', '\n', '\r', '\n', '\x00'].map Char.toUInt8)

theorem requestLine_of_plain : ∃ p, Reach (step 0) (start plain) p ∧
    ∃ method uri version rest, RequestLine plain.querybuf method uri version rest ∧
      p.conn.rest = rest ∧ p.copies = lineCopies method uri version := by
  obtain ⟨p, reach, h⟩ := exists_reach (step 0) (start plain) [true, true, true]
    (fun p => decide (p.pc = .head ∧ p.lines = [])) (by decide +kernel)
  obtain ⟨hp, call⟩ := of_decide_eq_true h
  exact ⟨p, reach, requestLine_of_head reach rfl hp call⟩

end Parse

end Leano.Epoll
