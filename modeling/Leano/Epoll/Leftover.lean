import Leano.Epoll.Parser

/-! Which bytes the parser looks at: when every one of its searches ends inside of the bytes
received, what the buffer held before does not matter, and otherwise it does. -/

namespace Leano.Epoll

open Leano.Lib

variable {accept w : List UInt8}

def Clean (accept s : List UInt8) : Prop := ∀ b ∈ s, ¬ Ends accept b

instance (accept s : List UInt8) : Decidable (Clean accept s) :=
  List.decidableBAll (fun b => ¬ Ends accept b) s

def StopsAtNul (accept s : List UInt8) : Prop := ∃ p r, s = p ++ 0 :: r ∧ Clean accept p

def Splits (accept s p r : List UInt8) : Prop :=
  ∃ b, b ∈ accept ∧ b ≠ 0 ∧ s = p ++ b :: r ∧ Clean accept p

theorem StopsAtNul.strpbrk (h : StopsAtNul accept w) (t : List UInt8) :
    strpbrk accept (w ++ t) = .ok none := by
  obtain ⟨p, r, rfl, clean⟩ := h
  rw [List.append_assoc, List.cons_append, strpbrk_of_ends clean (.inl rfl), if_pos rfl]

theorem Splits.strpbrk {p r : List UInt8} (h : Splits accept w p r) (t : List UInt8) :
    strpbrk accept (w ++ t) = .ok (some p.length) := by
  obtain ⟨b, mem, ne, rfl, clean⟩ := h
  rw [List.append_assoc, List.cons_append, strpbrk_of_ends clean (.inr mem), if_neg ne]

theorem Splits.drop {p r : List UInt8} (h : Splits accept w p r) (t : List UInt8) :
    (w ++ t).drop (p.length + 1) = r ++ t := by
  obtain ⟨b, -, -, rfl, -⟩ := h
  rw [List.append_assoc, List.cons_append, ← List.drop_drop, List.drop_left]
  rfl

theorem Splits.length {p r : List UInt8} (h : Splits accept w p r) :
    w.length = p.length + 1 + r.length := by
  obtain ⟨b, -, -, rfl, -⟩ := h
  simp only [List.length_append, List.length_cons]
  omega

theorem Splits.found {p r : List UInt8} (h : Splits accept w p r) :
    Lib.strpbrk accept w = .ok (some p.length) := by
  simpa using h.strpbrk []

theorem Splits.behind {p r : List UInt8} (h : Splits accept w p r) :
    w.drop (p.length + 1) = r := by
  simpa using h.drop []

theorem Splits.clean {p r : List UInt8} (h : Splits accept w p r) : Clean accept p := by
  obtain ⟨-, -, -, -, clean⟩ := h
  exact clean

theorem Clean.nul (h : Clean accept w) : 0 ∉ w := fun mem => h 0 mem (.inl rfl)

theorem search_cases (accept w : List UInt8) :
    Clean accept w ∨ StopsAtNul accept w ∨ ∃ p r, Splits accept w p r := by
  rcases strpbrk_cases accept w with clean | ⟨p, b, r, rfl, clean, hb⟩
  · exact .inl clean
  · by_cases nul : b = 0
    · subst nul
      exact .inr (.inl ⟨p, r, rfl, clean⟩)
    · exact .inr (.inr ⟨p, r, b, hb.resolve_left nul, nul, rfl, clean⟩)

def named (line : List UInt8) : Option (Dest × Nat) :=
  if startsWith hostName line then some (.host, 6)
  else if startsWith acceptName line then some (.accept, 8)
  else if startsWith connectionName line then some (.conn, 12)
  else none

theorem headerDest_eq {e : UInt8} (he : e = 0 ∨ e = 10) (line t : List UInt8) :
    headerDest (line ++ e :: t) = .ok (named line) := by
  have host : toLower e ∉ hostName.map toLower := by rcases he with rfl | rfl <;> decide
  have accept : toLower e ∉ acceptName.map toLower := by rcases he with rfl | rfl <;> decide
  have connection : toLower e ∉ connectionName.map toLower := by
    rcases he with rfl | rfl <;> decide
  simp only [headerDest, named, strncaseeq_eq host, strncaseeq_eq accept,
    strncaseeq_eq connection, ok_bind]
  cases startsWith hostName line with
  | true => rfl
  | false =>
    cases startsWith acceptName line with
    | true => rfl
    | false => cases startsWith connectionName line <;> rfl

def Within (bound : Dest → Nat) (line : List UInt8) : Prop :=
  ∀ hit ∈ named line, hit.2 ≤ line.length ∧ line.length ≤ hit.2 + bound hit.1

instance (bound : Dest → Nat) (line : List UInt8) : Decidable (Within bound line) :=
  inferInstanceAs (Decidable (∀ hit ∈ named line, _))

theorem copy_cases (f : Fields) (d : Dest) (start : Nat) {n : Int}
    (room : 0 ≤ n → start + n ≤ w.length) :
    ((0 ≤ n ∧ n ≤ d.room) ∧ ∃ f', ∀ t, f.copy d ((w ++ t).drop start) n = .ok f') ∨
    (¬ (0 ≤ n ∧ n ≤ d.room) ∧ ∀ src, f.copy d src n = .error .overflow) := by
  by_cases fits : 0 ≤ n ∧ n ≤ d.room
  · have room := room fits.1
    have inside : n ≤ (w.drop start).length := by
      rw [List.length_drop]
      omega
    refine .inl ⟨fits, f.strncpy d (w.drop start) n.toNat, fun t => ?_⟩
    have longer : n ≤ (w.drop start ++ t).length := by
      rw [List.length_append]
      omega
    rw [List.drop_append_of_le_length (by omega), copy_of_fits fits.1 fits.2 (.inl longer),
      strncpy_append (by omega)]
  · exact .inr ⟨fits, fun src => copy_of_past fits⟩

theorem headerLine_cases (f : Fields) (p : List UInt8) :
    (Within Dest.room p ∧ ∃ f', ∀ r, headerLine f (p ++ 10 :: r) p.length = .ok f') ∨
    (¬ Within Dest.room p ∧ ∀ r, headerLine f (p ++ 10 :: r) p.length = .error .overflow) := by
  cases hn : named p with
  | none =>
    refine .inl ⟨by simp [Within, hn], f, fun r => ?_⟩
    rw [headerLine, headerDest_eq (.inr rfl), ok_bind, hn]
    rfl
  | some hit =>
    obtain ⟨dest, off⟩ := hit
    have line (r) : headerLine f (p ++ 10 :: r) p.length =
        f.copy dest ((p ++ 10 :: r).drop off) (p.length - off) := by
      rw [headerLine, headerDest_eq (.inr rfl), ok_bind, hn]
    have room : 0 ≤ (p.length - off : Int) → off + (p.length - off : Int) ≤ p.length := by omega
    simp only [line, Within, hn, Option.mem_some_iff, forall_eq']
    rcases copy_cases f dest off room with ⟨fits, f', hf⟩ | ⟨past, hf⟩
    · exact .inl ⟨by omega, f', fun r => hf _⟩
    · exact .inr ⟨by omega, fun r => hf _⟩

/-- The searches of `process_head` that start in these bytes end in them, and its copies in the
connection. -/
inductive HeadSettled : List UInt8 → Prop
  | last {v p r} : Splits newline v p r → p.length = 1 → HeadSettled v
  | next {v p r} : Splits newline v p r → Within Dest.room p → HeadSettled r → HeadSettled v

theorem Splits.eq_newline {p r : List UInt8} (h : Splits newline w p r) : w = p ++ 10 :: r := by
  obtain ⟨b, mem, -, rfl, -⟩ := h
  rw [List.mem_singleton.mp mem]

theorem headerLines_line {p r : List UInt8} (h : Splits newline w p r) (f : Fields) :
    (p.length = 1 ∧ ∀ t n, headerLines (n + 1) f (w ++ t) = .ok f) ∨
    (p.length ≠ 1 ∧ Within Dest.room p ∧ ∃ f', ∀ t n,
      headerLines (n + 1) f (w ++ t) = headerLines n f' (r ++ t)) ∨
    (p.length ≠ 1 ∧ ¬ Within Dest.room p ∧ ∀ t n,
      headerLines (n + 1) f (w ++ t) = .error .overflow) := by
  have split : ∀ t, w ++ t = p ++ 10 :: (r ++ t) := fun t => by simp [h.eq_newline]
  by_cases one : p.length = 1
  · exact .inl ⟨one, fun t n => by simp [headerLines, h.strpbrk t, one]; rfl⟩
  · rcases headerLine_cases f p with ⟨fits, f', hf⟩ | ⟨past, hf⟩
    · refine .inr (.inl ⟨one, fits, f', fun t n => ?_⟩)
      rw [headerLines, h.strpbrk t, ok_bind]
      simp only [one, if_false]
      rw [h.drop t, split t, hf, ok_bind]
    · refine .inr (.inr ⟨one, past, fun t n => ?_⟩)
      rw [headerLines, h.strpbrk t, ok_bind]
      simp only [one, if_false]
      rw [split t, hf, error_bind]

/-- What `process_head` does from here on does not depend on the bytes behind. -/
theorem HeadSettled.determined (h : HeadSettled w) (f : Fields) :
    ∃ f', ∀ t n, (w ++ t).length < n → headerLines n f (w ++ t) = .ok f' := by
  have more {w p r : List UInt8} (hs : Splits newline w p r) {t : List UInt8} {n : Nat}
      (hn : (w ++ t).length < n) : ∃ m, n = m + 1 ∧ (r ++ t).length < m := by
    have := hs.length
    simp only [List.length_append] at hn ⊢
    exact ⟨n - 1, by omega, by omega⟩
  induction h generalizing f with
  | last hs one =>
    rcases headerLines_line hs f with ⟨-, hl⟩ | ⟨ne, -⟩ | ⟨ne, -⟩
    · refine ⟨f, fun t n hn => ?_⟩
      obtain ⟨m, rfl, -⟩ := more hs hn
      exact hl t m
    · exact absurd one ne
    · exact absurd one ne
  | next hs within _ ih =>
    rcases headerLines_line hs f with ⟨-, hl⟩ | ⟨-, -, f', hl⟩ | ⟨-, past, -⟩
    · refine ⟨f, fun t n hn => ?_⟩
      obtain ⟨m, rfl, -⟩ := more hs hn
      exact hl t m
    · obtain ⟨f'', hf⟩ := ih f'
      refine ⟨f'', fun t n hn => ?_⟩
      obtain ⟨m, rfl, hm⟩ := more hs hn
      rw [hl t m, hf t m hm]
    · exact absurd within past

def quietLeftover : List UInt8 := List.replicate 512 0

def loudLeftover : List UInt8 := 32 :: 10 :: 13 :: 10 :: quietLeftover

theorem quietLeftover_length : quietLeftover.length = 512 := List.length_replicate

theorem loudLeftover_length : 512 ≤ loudLeftover.length := by
  simp only [loudLeftover, List.length_cons, quietLeftover_length]
  omega

theorem Clean.strpbrk_quiet {accept : List UInt8} (h : Clean accept w) :
    strpbrk accept (w ++ quietLeftover) = .ok none := by
  rw [quietLeftover, List.replicate_succ, strpbrk_of_ends h (.inl rfl), if_pos rfl]

theorem Clean.splits_loud (h : Clean newline w) :
    Splits newline (w ++ loudLeftover) (w ++ [32]) (13 :: 10 :: quietLeftover) := by
  refine ⟨10, by decide, by decide, by simp [loudLeftover], ?_⟩
  intro b hb
  rcases List.mem_append.mp hb with hb | hb
  · exact h b hb
  · rw [List.mem_singleton.mp hb]
    decide

theorem headerLines_last (n : Nat) (f : Fields) :
    headerLines (n + 1) f (13 :: 10 :: quietLeftover) = .ok f := rfl

theorem StopsAtNul.headerLines (h : StopsAtNul newline w) (n : Nat) (f : Fields)
    (t : List UInt8) : headerLines (n + 1) f (w ++ t) = .error .null := by
  rw [Epoll.headerLines, h.strpbrk t]
  rfl

theorem headerLines_unsettled (h : ¬ HeadSettled w) (f : Fields) {n : Nat} (hn : w.length < n) :
    ∃ e, headerLines n f (w ++ quietLeftover) = .error e := by
  induction n generalizing w f with
  | zero => cases hn
  | succ n ih =>
    rcases search_cases newline w with clean | stops | ⟨p, r, hs⟩
    · refine ⟨.null, ?_⟩
      rw [headerLines, clean.strpbrk_quiet]
      rfl
    · exact ⟨.null, stops.headerLines n f _⟩
    · rcases headerLines_line hs f with ⟨one, -⟩ | ⟨-, within, f', hl⟩ | ⟨-, -, hl⟩
      · exact absurd (.last hs one) h
      · have := hs.length
        rw [hl]
        exact ih (fun hr => h (.next hs within hr)) f' (by omega)
      · exact ⟨.overflow, hl _ n⟩

def VersionFound (w : List UInt8) (start : Nat) : Prop :=
  ∃ p r, Splits newline w p r ∧ (start ≤ p.length ∧ p.length ≤ start + Dest.version.room) ∧
    HeadSettled r

def VersionSettled (w : List UInt8) (start : Nat) : Prop :=
  StopsAtNul newline w ∨ VersionFound w start

def WordFound (d : Dest) (w : List UInt8) (next : Nat → Prop) (start : Nat) : Prop :=
  ∃ p r, Splits blanks (w.drop start) p r ∧ p.length ≤ d.room ∧ next (start + (p.length + 1))

def WordSettled (d : Dest) (w : List UInt8) (next : Nat → Prop) (start : Nat) : Prop :=
  StopsAtNul blanks (w.drop start) ∨ WordFound d w next start

/-- The searches that `process_request_line` makes from `start` on end inside of `w`, and what it
does is defined. -/
def Settled (w : List UInt8) : Nat → Prop :=
  WordSettled .method w (WordSettled .uri w (VersionSettled w))

def Completed (w : List UInt8) : Nat → Prop :=
  WordFound .method w (WordFound .uri w (VersionFound w))

/-- What a call leaves behind, the buffer aside. -/
def outcome (result : Except Fault WebConnection) : Except Fault WebConnection :=
  result.map fun c => c.withBuf []

theorem outcome_ok {result : Except Fault WebConnection} {c : WebConnection}
    (h : outcome result = .ok c) : ∃ c', result = .ok c' ∧ c'.withBuf [] = c := by
  cases result with
  | error e => cases h
  | ok c' => exact ⟨c', rfl, Except.ok.inj h⟩

def SameOutcome (one other : Except Fault WebConnection) : Prop :=
  ∃ c, outcome one = .ok c ∧ outcome other = .ok c

def Determined (parse : WebConnection → Except Fault WebConnection) (c : WebConnection)
    (w : List UInt8) : Prop :=
  ∃ c', ∀ t, outcome (parse (c.withBuf (w ++ t))) = .ok c'

def Distinguished (parse : WebConnection → Except Fault WebConnection) (c : WebConnection)
    (w : List UInt8) : Prop :=
  ¬ SameOutcome (parse (c.withBuf (w ++ quietLeftover))) (parse (c.withBuf (w ++ loudLeftover)))

theorem distinguished_of_error {parse : WebConnection → Except Fault WebConnection}
    {c : WebConnection} {e : Fault} (h : parse (c.withBuf (w ++ quietLeftover)) = .error e) :
    Distinguished parse c w := by
  rintro ⟨c', one, -⟩
  rw [h] at one
  cases one

section version

variable {c : WebConnection} {p r : List UInt8}

theorem requestVersion_stops (h : StopsAtNul newline w) (t : List UInt8) :
    requestVersion (c.withBuf (w ++ t)) = .ok (c.withBuf (w ++ t)) := by
  have := h.strpbrk t
  simp [requestVersion, WebConnection.withBuf, this]
  rfl

theorem requestVersion_line (c : WebConnection) (h : Splits newline w p r) :
    ((c.queryStartIndex ≤ p.length ∧ p.length ≤ c.queryStartIndex + Dest.version.room) ∧
      ∃ f, ∀ t, requestVersion (c.withBuf (w ++ t)) =
        (headerLines ((r ++ t).length + 1) f (r ++ t)).map fun f' =>
          processBody { c.withBuf (w ++ t) with toFields := f' }) ∨
    (¬ (c.queryStartIndex ≤ p.length ∧ p.length ≤ c.queryStartIndex + Dest.version.room) ∧
      ∀ t, requestVersion (c.withBuf (w ++ t)) = .error .overflow) := by
  have := h.length
  have room : 0 ≤ (p.length - c.queryStartIndex : Int) →
      c.queryStartIndex + (p.length - c.queryStartIndex : Int) ≤ w.length := by omega
  rcases copy_cases c.toFields .version c.queryStartIndex room with ⟨fits, f, hf⟩ | ⟨past, hf⟩
  · refine .inl ⟨by omega, f, fun t => ?_⟩
    simp only [requestVersion, WebConnection.rest, WebConnection.withBuf, h.strpbrk t, ok_bind, hf,
      processHead, h.drop t]
    cases headerLines ((r ++ t).length + 1) f (r ++ t) <;> rfl
  · refine .inr ⟨by omega, fun t => ?_⟩
    simp only [requestVersion, WebConnection.rest, WebConnection.withBuf, h.strpbrk t, ok_bind, hf,
      error_bind]

theorem VersionFound.sent (h : VersionFound w c.queryStartIndex) :
    ∃ f, ∀ t, requestVersion (c.withBuf (w ++ t)) =
      .ok (processBody { c.withBuf (w ++ t) with toFields := f }) := by
  obtain ⟨p, r, hs, fits, head⟩ := h
  rcases requestVersion_line c hs with ⟨-, f, hv⟩ | ⟨past, -⟩
  · obtain ⟨f', hf⟩ := head.determined f
    refine ⟨f', fun t => ?_⟩
    rw [hv t, hf t _ (Nat.lt_succ_self _)]
    rfl
  · exact absurd fits past

theorem VersionSettled.determined (h : VersionSettled w c.queryStartIndex) :
    Determined requestVersion c w := by
  rcases h with stops | found
  · refine ⟨c.withBuf [], fun t => ?_⟩
    rw [requestVersion_stops stops]
    rfl
  · obtain ⟨f, hf⟩ := found.sent
    refine ⟨(processBody { c with toFields := f }).withBuf [], fun t => ?_⟩
    rw [hf t]
    rfl

theorem version_distinguished_of_clean (clean : Clean newline w) (hc : c.state ≠ .sendData) :
    Distinguished requestVersion c w := by
  have quiet : requestVersion (c.withBuf (w ++ quietLeftover)) =
      .ok (c.withBuf (w ++ quietLeftover)) := by
    simp only [requestVersion, WebConnection.withBuf, clean.strpbrk_quiet, ok_bind]
    rfl
  rintro ⟨c', one, other⟩
  rw [quiet] at one
  rcases requestVersion_line c clean.splits_loud with ⟨-, f, hv⟩ | ⟨-, hv⟩
  · have loud := hv []
    rw [List.append_nil, List.append_nil, headerLines_last] at loud
    rw [loud] at other
    have state := congrArg (fun c : WebConnection => c.state)
      (Except.ok.inj (one.trans other.symm))
    exact hc state
  · have loud := hv []
    rw [List.append_nil] at loud
    rw [loud] at other
    cases other

theorem version_distinguished (h : ¬ VersionSettled w c.queryStartIndex)
    (hc : c.state ≠ .sendData) : Distinguished requestVersion c w := by
  rcases search_cases newline w with clean | stops | ⟨p, r, hs⟩
  · exact version_distinguished_of_clean clean hc
  · exact absurd (.inl stops) h
  · rcases requestVersion_line c hs with ⟨fits, f, hv⟩ | ⟨-, hv⟩
    · obtain ⟨e, he⟩ := headerLines_unsettled (n := (r ++ quietLeftover).length + 1)
        (fun head => h (.inr ⟨p, r, hs, fits, head⟩)) f (by
          rw [List.length_append]
          omega)
      refine distinguished_of_error (e := e) ?_
      rw [hv, he]
      rfl
    · exact distinguished_of_error (hv _)

end version

section word

variable {d : Dest} {next : WebConnection → Except Fault WebConnection} {c : WebConnection}
  {p r : List UInt8}

theorem requestWord_stops (h : StopsAtNul blanks (w.drop c.queryStartIndex)) (t : List UInt8) :
    requestWord d next (c.withBuf (w ++ t)) = .ok (c.withBuf (w ++ t)) := by
  have inside : c.queryStartIndex ≤ w.length := by
    obtain ⟨q, z, hs, -⟩ := h
    have := congrArg List.length hs
    simp only [List.length_drop, List.length_append, List.length_cons] at this
    omega
  have found : strpbrk blanks ((w ++ t).drop c.queryStartIndex) = .ok none := by
    rw [List.drop_append_of_le_length inside]
    exact h.strpbrk t
  simp only [requestWord, WebConnection.rest, WebConnection.withBuf, found, ok_bind]
  rfl

theorem requestWord_split (d : Dest) (next : WebConnection → Except Fault WebConnection)
    (h : Splits blanks (w.drop c.queryStartIndex) p r) :
    (p.length ≤ d.room ∧ ∃ f, ∀ t, requestWord d next (c.withBuf (w ++ t)) =
      next (({ c with toFields := f }.advance p.length).withBuf (w ++ t))) ∨
    (d.room < p.length ∧ ∀ t, requestWord d next (c.withBuf (w ++ t)) = .error .overflow) := by
  have length := h.length
  rw [List.length_drop] at length
  have found : ∀ t, strpbrk blanks ((w ++ t).drop c.queryStartIndex) = .ok (some p.length) := by
    intro t
    rw [List.drop_append_of_le_length (by omega)]
    exact h.strpbrk t
  have room : 0 ≤ (p.length : Int) → c.queryStartIndex + (p.length : Int) ≤ w.length := by omega
  rcases copy_cases c.toFields d c.queryStartIndex room with ⟨fits, f, hf⟩ | ⟨past, hf⟩
  · refine .inl ⟨by omega, f, fun t => ?_⟩
    simp only [requestWord, WebConnection.rest, WebConnection.withBuf, found, ok_bind, hf]
    rfl
  · refine .inr ⟨by omega, fun t => ?_⟩
    simp only [requestWord, WebConnection.rest, WebConnection.withBuf, found, ok_bind, hf,
      error_bind]

theorem WordFound.step {N : Nat → Prop} (next : WebConnection → Except Fault WebConnection)
    (h : WordFound d w N c.queryStartIndex) (inside : c.queryStartIndex ≤ w.length) :
    ∃ c' : WebConnection, c'.toControl = c.toControl ∧ c.queryStartIndex < c'.queryStartIndex ∧
      c'.queryStartIndex ≤ w.length ∧ N c'.queryStartIndex ∧
      ∀ t, requestWord d next (c.withBuf (w ++ t)) = next (c'.withBuf (w ++ t)) := by
  obtain ⟨p, r, hs, fits, later⟩ := h
  have length := hs.length
  rw [List.length_drop] at length
  rcases requestWord_split d next hs with ⟨-, f, hw⟩ | ⟨past, -⟩
  · refine ⟨{ c with toFields := f }.advance p.length, rfl, ?_, ?_, later, hw⟩
    · exact Nat.lt_add_of_pos_right (Nat.succ_pos _)
    · change c.queryStartIndex + (p.length + 1) ≤ w.length
      omega
  · omega

theorem WordSettled.determined {N : Nat → Prop} (h : WordSettled d w N c.queryStartIndex)
    (inside : c.queryStartIndex ≤ w.length)
    (later : ∀ c : WebConnection, N c.queryStartIndex → c.queryStartIndex ≤ w.length →
      Determined next c w) : Determined (requestWord d next) c w := by
  rcases h with stops | found
  · refine ⟨c.withBuf [], fun t => ?_⟩
    rw [requestWord_stops stops]
    rfl
  · obtain ⟨c', -, -, behind, settled, hw⟩ := found.step next inside
    obtain ⟨result, hr⟩ := later c' settled behind
    exact ⟨result, fun t => by rw [hw t]; exact hr t⟩

/-- A search that runs into the leftover moves on in one of the two buffers only. -/
theorem word_distinguished_of_clean (clean : Clean blanks (w.drop c.queryStartIndex))
    (hc : c.state ≠ .sendData) (inside : c.queryStartIndex ≤ w.length)
    (progress : ∀ c c', next c = .ok c' → Parsed c c') :
    Distinguished (requestWord d next) c w := by
  have quiet : requestWord d next (c.withBuf (w ++ quietLeftover)) =
      .ok (c.withBuf (w ++ quietLeftover)) := by
    have found := clean.strpbrk_quiet
    rw [← List.drop_append_of_le_length inside] at found
    simp only [requestWord, WebConnection.rest, WebConnection.withBuf, found, ok_bind]
    rfl
  have split : Splits blanks ((w ++ loudLeftover).drop c.queryStartIndex)
      (w.drop c.queryStartIndex) (10 :: 13 :: 10 :: quietLeftover) :=
    ⟨32, by decide, by decide, List.drop_append_of_le_length inside, clean⟩
  rintro ⟨c', one, other⟩
  rw [quiet] at one
  rcases requestWord_split d next split with ⟨-, f, hw⟩ | ⟨-, hw⟩
  · have loud := hw []
    rw [List.append_nil] at loud
    rw [loud] at other
    obtain ⟨c₁, hn, same⟩ := outcome_ok other
    have equal : c.withBuf [] = c₁.withBuf [] := (Except.ok.inj one).trans same.symm
    rcases progress _ _ hn with sent | ⟨-, -, -, -, ahead⟩
    · have control := congrArg WebConnection.toControl equal
      exact hc (congrArg Control.state (control.trans sent))
    · have start := congrArg WebConnection.queryStartIndex equal
      have : c.queryStartIndex + ((w.drop c.queryStartIndex).length + 1) ≤
        c₁.queryStartIndex := ahead
      simp only [WebConnection.withBuf] at start
      omega
  · have loud := hw []
    rw [List.append_nil] at loud
    rw [loud] at other
    cases other

theorem word_distinguished {N : Nat → Prop} (h : ¬ WordSettled d w N c.queryStartIndex)
    (hc : c.state ≠ .sendData) (inside : c.queryStartIndex ≤ w.length)
    (progress : ∀ c c', next c = .ok c' → Parsed c c')
    (later : ∀ c, ¬ N c.queryStartIndex → c.state ≠ .sendData → c.queryStartIndex ≤ w.length →
      Distinguished next c w) : Distinguished (requestWord d next) c w := by
  rcases search_cases blanks (w.drop c.queryStartIndex) with clean | stops | ⟨p, r, hs⟩
  · exact word_distinguished_of_clean clean hc inside progress
  · exact absurd (.inl stops) h
  · have length := hs.length
    rw [List.length_drop] at length
    rcases requestWord_split d next hs with ⟨fits, f, hw⟩ | ⟨-, hw⟩
    · have unsettled : ¬ N (c.queryStartIndex + (p.length + 1)) :=
        fun hn => h (.inr ⟨p, r, hs, fits, hn⟩)
      rw [Distinguished, hw, hw]
      refine later _ unsettled hc ?_
      change c.queryStartIndex + (p.length + 1) ≤ w.length
      omega
    · exact distinguished_of_error (hw _)

end word

section completed

variable {d : Dest} {N N' : Nat → Prop} {p r : List UInt8} {start : Nat}

theorem Splits.append (h : Splits accept w p r) (t : List UInt8) :
    Splits accept (w ++ t) p (r ++ t) := by
  obtain ⟨b, mem, ne, rfl, clean⟩ := h
  exact ⟨b, mem, ne, by simp, clean⟩

theorem Splits.of_concat (h : Splits accept (w ++ [0]) p r) :
    ∃ r', r = r' ++ [0] ∧ Splits accept w p r' := by
  obtain ⟨b, mem, ne, eq, clean⟩ := h
  rcases List.eq_nil_or_concat r with rfl | ⟨r', z, rfl⟩
  · rw [List.append_inj_right' eq rfl |> List.singleton_inj.mp] at ne
    exact absurd rfl ne
  · rw [List.concat_eq_append, ← List.cons_append, ← List.append_assoc] at eq
    obtain ⟨text, last⟩ := List.append_inj' eq rfl
    rw [List.concat_eq_append, ← last]
    exact ⟨r', rfl, b, mem, ne, text, clean⟩

theorem HeadSettled.append (h : HeadSettled w) (t : List UInt8) : HeadSettled (w ++ t) := by
  induction h with
  | last hs one => exact .last (hs.append t) one
  | next hs within _ ih => exact .next (hs.append t) within ih

theorem HeadSettled.of_concat (h : HeadSettled (w ++ [0])) : HeadSettled w := by
  generalize eq : w ++ [0] = v at h
  induction h generalizing w with
  | last hs one =>
    obtain ⟨r', -, split⟩ := Splits.of_concat (eq ▸ hs)
    exact .last split one
  | next hs within _ ih =>
    obtain ⟨r', rfl, split⟩ := Splits.of_concat (eq ▸ hs)
    exact .next split within (ih rfl)

theorem VersionFound.append (h : VersionFound w start) (t : List UInt8) :
    VersionFound (w ++ t) start := by
  obtain ⟨p, r, hs, fits, head⟩ := h
  exact ⟨p, r ++ t, hs.append t, fits, head.append t⟩

theorem VersionFound.of_concat (h : VersionFound (w ++ [0]) start) : VersionFound w start := by
  obtain ⟨p, r, hs, fits, head⟩ := h
  obtain ⟨r', rfl, split⟩ := hs.of_concat
  exact ⟨p, r', split, fits, head.of_concat⟩

theorem WordFound.append (h : WordFound d w N start) (t : List UInt8)
    (later : ∀ s, N s → N' s) : WordFound d (w ++ t) N' start := by
  obtain ⟨p, r, hs, fits, next⟩ := h
  have length := hs.length
  rw [List.length_drop] at length
  refine ⟨p, r ++ t, ?_, fits, later _ next⟩
  rw [List.drop_append_of_le_length (by omega)]
  exact hs.append t

theorem WordFound.of_concat (h : WordFound d (w ++ [0]) N start) (inside : start ≤ w.length)
    (later : ∀ s ≤ w.length, N s → N' s) : WordFound d w N' start := by
  obtain ⟨p, r, hs, fits, next⟩ := h
  rw [List.drop_append_of_le_length inside] at hs
  obtain ⟨r', -, split⟩ := hs.of_concat
  have length := split.length
  rw [List.length_drop] at length
  exact ⟨p, r', split, fits, later _ (by omega) next⟩

theorem Completed.append (h : Completed w start) (t : List UInt8) : Completed (w ++ t) start :=
  WordFound.append h t fun _ hu => hu.append t fun _ hv => hv.append t

theorem Completed.of_concat (h : Completed (w ++ [0]) start) (inside : start ≤ w.length) :
    Completed w start :=
  WordFound.of_concat h inside fun _ inside hu => hu.of_concat inside fun _ _ hv => hv.of_concat

theorem Completed.settled (h : Completed w start) : Settled w start := by
  obtain ⟨p, r, hs, fits, p', r', hs', fits', found⟩ := h
  exact .inr ⟨p, r, hs, fits, .inr ⟨p', r', hs', fits', .inr found⟩⟩

end completed

def shortRequest : List UInt8 := [65, 32, 66, 32, 10, 13, 10]

theorem completed_shortRequest : Completed shortRequest 0 := by
  have line : Splits newline [13, 10] [13] [] := ⟨10, by decide, by decide, rfl, by decide⟩
  have version : VersionFound shortRequest 4 :=
    ⟨[65, 32, 66, 32], [13, 10], ⟨10, by decide, by decide, rfl, by decide⟩, by decide,
      .last line rfl⟩
  have uri : WordFound .uri shortRequest (VersionFound shortRequest) 2 :=
    ⟨[66], [10, 13, 10], ⟨32, by decide, by decide, rfl, by decide⟩, by decide, version⟩
  exact ⟨[65], [66, 32, 10, 13, 10], ⟨32, by decide, by decide, rfl, by decide⟩, by decide, uri⟩

section settled

variable {c c' : WebConnection} {t : List UInt8}

theorem Settled.determined (h : Settled w c.queryStartIndex)
    (inside : c.queryStartIndex ≤ w.length) : Determined processRequestLine c w :=
  WordSettled.determined h inside fun _ hu inside =>
    WordSettled.determined hu inside fun _ hv _ => hv.determined

theorem distinguished_of_not_settled (h : ¬ Settled w c.queryStartIndex)
    (hc : c.state ≠ .sendData) (inside : c.queryStartIndex ≤ w.length) :
    Distinguished processRequestLine c w :=
  word_distinguished h hc inside (fun _ _ => parsed_of_requestUri)
    fun _ hu hc inside => word_distinguished hu hc inside (fun _ _ => parsed_of_requestVersion)
      fun _ hv hc _ => version_distinguished hv hc

theorem inside_of_word {d : Dest} {N : Nat → Prop}
    {next : WebConnection → Except Fault WebConnection}
    (h : WordSettled d w N c.queryStartIndex) (inside : c.queryStartIndex ≤ w.length)
    (hc : requestWord d next (c.withBuf (w ++ t)) = .ok c')
    (later : ∀ c : WebConnection, N c.queryStartIndex → c.queryStartIndex ≤ w.length →
      next (c.withBuf (w ++ t)) = .ok c' → c'.toControl = sent ∨ c'.queryStartIndex ≤ w.length) :
    c'.toControl = sent ∨ c'.queryStartIndex ≤ w.length := by
  rcases h with stops | found
  · rw [requestWord_stops stops] at hc
    cases hc
    exact .inr inside
  · obtain ⟨c₁, -, -, behind, settled, hw⟩ := found.step next inside
    rw [hw t] at hc
    exact later c₁ settled behind hc

theorem Settled.inside (h : Settled w c.queryStartIndex) (inside : c.queryStartIndex ≤ w.length)
    (hc : processRequestLine (c.withBuf (w ++ t)) = .ok c') :
    c'.toControl = sent ∨ c'.queryStartIndex ≤ w.length := by
  refine inside_of_word h inside hc fun _ hu inside hc => ?_
  refine inside_of_word hu inside hc fun _ _ inside hc => ?_
  refine (requestVersion_ok hc).imp_right fun same => ?_
  rw [same]
  exact inside

theorem found_of_word {d : Dest} {N N' : Nat → Prop}
    {next : WebConnection → Except Fault WebConnection}
    (h : WordSettled d w N c.queryStartIndex)
    (hc : requestWord d next (c.withBuf (w ++ t)) = .ok c')
    (moved : c'.toControl ≠ c.toControl)
    (later : ∀ c₁ : WebConnection, c'.toControl ≠ c₁.toControl → N c₁.queryStartIndex →
      next (c₁.withBuf (w ++ t)) = .ok c' → N' c₁.queryStartIndex) :
    WordFound d w N' c.queryStartIndex := by
  rcases h with stops | ⟨p, r, hs, fits, settled⟩
  · rw [requestWord_stops stops] at hc
    cases hc
    exact absurd rfl moved
  · rcases requestWord_split d next hs with ⟨-, f, hw⟩ | ⟨past, -⟩
    · rw [hw t] at hc
      exact ⟨p, r, hs, fits, later ({ c with toFields := f }.advance p.length) moved settled hc⟩
    · omega

theorem Settled.completed (h : Settled w c.queryStartIndex)
    (hc : processRequestLine (c.withBuf (w ++ t)) = .ok c')
    (moved : c'.toControl ≠ c.toControl) : Completed w c.queryStartIndex := by
  refine found_of_word h hc moved fun _ moved hu hc => ?_
  refine found_of_word hu hc moved fun c₁ moved hv hc => ?_
  rcases hv with stops | found
  · rw [requestVersion_stops stops] at hc
    cases hc
    exact absurd rfl moved
  · exact found

end settled

end Leano.Epoll
