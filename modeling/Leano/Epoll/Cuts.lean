import Leano.Epoll.Leftover
import Leano.Epoll.Segments

/-! A request cut into segments. Every read event starts the parser anew where it stopped before, so
a cut does no harm as long as the parser has not moved or is through. -/

namespace Leano.Epoll

open Leano.Lib

def served (mem : Nat → UInt8) (segment : List UInt8) :
    Option WebConnection → Except Fault (Option WebConnection)
  | none => .ok none
  | some c =>
    match c.readHandler with
    | some .readRequest => readRequest mem segment c
    | _ => .ok (some c)

structure Delivery where
  received : List UInt8
  result : Except Fault (Option WebConnection)

def view (c : WebConnection) : ConnState × Fields := (c.state, c.toFields)

namespace Delivery

def start (raw : Fields) (mem : Nat → UInt8) : Delivery := ⟨[], .ok (some (opened raw mem))⟩

def next (mem : Nat → UInt8) (d : Delivery) (segment : List UInt8) : Delivery :=
  ⟨d.received ++ segment, d.result >>= served mem segment⟩

def step (mem : Nat → UInt8) (d : Delivery) (segment : List UInt8) : Option Delivery :=
  if segment = [] then none else some (d.next mem segment)

def final (d : Delivery) : Except Fault (Option (ConnState × Fields)) :=
  d.result.map (Option.map view)

/-- The event begins with the parser where it started, has room for the segment, and lets it see
nothing but what was sent, with a NUL behind. -/
structure Whole (mem : Nat → UInt8) (d : Delivery) (segment : List UInt8) (c : WebConnection) :
    Prop where
  waited : ∀ b ∈ beforeNul d.received, b ∉ blanks
  takes : Takes mem (d.received ++ segment) c.querybuf.length
  settled : Settled (beforeNul (d.received ++ segment) ++ [0]) 0
  ended : 0 ∈ d.received ++ segment ∨ mem (d.received ++ segment).length = 0 ∨
    Completed (d.received ++ segment) 0

def Undivided (mem : Nat → UInt8) (d : Delivery) (segment : List UInt8) : Prop :=
  ∀ c, d.result = .ok (some c) → c.readHandler = some .readRequest → Whole mem d segment c

end Delivery

section view

def parsedPart (c : WebConnection) : Control × Fields × Nat × List UInt8 :=
  (c.toControl, c.toFields, c.queryStartIndex, c.querybuf)

def withEnd (c : WebConnection) (last room : Int) : WebConnection :=
  { c with queryEndIndex := last, queryRemainLen := room }

variable {c c' : WebConnection} {last room : Int}

theorem eq_withEnd (h : parsedPart c = parsedPart c') :
    c' = withEnd c c'.queryEndIndex c'.queryRemainLen := by
  obtain ⟨control, fields, buf, index, _, _⟩ := c
  obtain ⟨control', fields', buf', index', _, _⟩ := c'
  simp only [parsedPart, Prod.mk.injEq] at h
  obtain ⟨rfl, rfl, rfl, rfl⟩ := h
  rfl

/-- `parse` does not look at the indices that say how far the buffer is filled. -/
def Blind (parse : WebConnection → Except Fault WebConnection) : Prop :=
  ∀ c last room, (parse (withEnd c last room)).map parsedPart = (parse c).map parsedPart

theorem blind_processHead : Blind processHead := by
  intro c last room
  have rest : (withEnd c last room).rest = c.rest := rfl
  have fields : (withEnd c last room).toFields = c.toFields := rfl
  simp only [processHead, rest, fields]
  cases headerLines (c.rest.length + 1) c.toFields c.rest <;> rfl

theorem blind_requestVersion : Blind requestVersion := by
  intro c last room
  have buf : (withEnd c last room).querybuf = c.querybuf := rfl
  have rest : (withEnd c last room).rest = c.rest := rfl
  have fields : (withEnd c last room).toFields = c.toFields := rfl
  have start : (withEnd c last room).queryStartIndex = c.queryStartIndex := rfl
  simp only [requestVersion, buf, rest, fields, start]
  cases strpbrk newline c.querybuf with
  | error => rfl
  | ok hit =>
    cases hit with
    | none => rfl
    | some pos =>
      simp only [ok_bind]
      cases c.copy .version c.rest (pos - c.queryStartIndex) with
      | error => rfl
      | ok f =>
        exact blind_processHead { c with toFields := f, queryStartIndex := pos + 1 } last room

theorem blind_requestWord {d : Dest} {next : WebConnection → Except Fault WebConnection}
    (h : Blind next) : Blind (requestWord d next) := by
  intro c last room
  have rest : (withEnd c last room).rest = c.rest := rfl
  have fields : (withEnd c last room).toFields = c.toFields := rfl
  simp only [requestWord, rest, fields]
  cases strpbrk blanks c.rest with
  | error => rfl
  | ok hit =>
    cases hit with
    | none => rfl
    | some len =>
      simp only [ok_bind]
      cases c.copy d c.rest len with
      | error => rfl
      | ok f => exact h ({ c with toFields := f }.advance len) last room

theorem blind_processRequestLine : Blind processRequestLine :=
  blind_requestWord (blind_requestWord blind_requestVersion)

end view

structure Fresh (raw : Fields) (c : WebConnection) : Prop where
  control : c.toControl = ⟨.read, some .readRequest, none⟩
  fields : c.toFields = raw
  index : c.queryStartIndex = 0

def parsedWhole (raw : Fields) (text : List UInt8) : Except Fault (ConnState × Fields) :=
  (processRequestLine (.accepted raw (beforeNul text ++ [0]))).map view

section parse

variable {raw : Fields} {u t text : List UInt8} {c c' : WebConnection}

theorem parses_alike (h : Settled u 0) (raw : Fields) : ∃ e, ∀ c t, Fresh raw c →
    c.querybuf = u ++ t → ∃ c', processRequestLine c = .ok c' ∧ view c' = e := by
  obtain ⟨c₀, h₀⟩ := Settled.determined (c := .accepted raw []) h (Nat.zero_le _)
  refine ⟨view c₀, fun c t fresh buf => ?_⟩
  obtain ⟨c₁, hc₁, rfl⟩ := outcome_ok (h₀ t)
  have blind := blind_processRequestLine ((WebConnection.accepted raw []).withBuf (u ++ t))
    c.queryEndIndex c.queryRemainLen
  have eq : parsedPart ((WebConnection.accepted raw []).withBuf (u ++ t)) = parsedPart c := by
    simp only [parsedPart, fresh.control, fresh.fields, fresh.index, buf]
    rfl
  rw [← eq_withEnd eq, hc₁] at blind
  cases hp : processRequestLine c with
  | error e =>
    rw [hp] at blind
    cases blind
  | ok c' =>
    rw [hp] at blind
    have same : parsedPart c' = parsedPart c₁ := Except.ok.inj blind
    refine ⟨c', rfl, ?_⟩
    have control := congrArg Prod.fst same
    have fields := congrArg (fun k => k.2.1) same
    exact Prod.ext (congrArg Control.state control) fields

theorem parsedWhole_of_alike (h : Settled u 0) (starts : u <+: beforeNul text ++ [0])
    (fresh : Fresh raw c) (buf : c.querybuf = u ++ t) (hc : processRequestLine c = .ok c') :
    parsedWhole raw text = .ok (view c') := by
  obtain ⟨e, alike⟩ := parses_alike h raw
  obtain ⟨c₁, hc₁, rfl⟩ := alike c t fresh buf
  cases hc.symm.trans hc₁
  obtain ⟨t', ht'⟩ := starts
  obtain ⟨c₂, hc₂, same⟩ := alike (.accepted raw (beforeNul text ++ [0])) t' ⟨rfl, rfl, rfl⟩
    ht'.symm
  rw [parsedWhole, hc₂, ← same]
  rfl

theorem parsedWhole_append (raw : Fields) (h : Completed (beforeNul text) 0)
    (more : List UInt8) :
    parsedWhole raw (text ++ more) = parsedWhole raw text ∧
      Completed (beforeNul (text ++ more)) 0 := by
  obtain ⟨t, ht⟩ : ∃ t, beforeNul (text ++ more) = beforeNul text ++ t := by
    by_cases nul : 0 ∈ text
    · exact ⟨[], by rw [beforeNul_append_of_mem nul, List.append_nil]⟩
    · exact ⟨_, by rw [beforeNul_append_of_not_mem nul, beforeNul_of_not_mem nul]⟩
  obtain ⟨e, alike⟩ := parses_alike h.settled raw
  obtain ⟨c₁, hc₁, same₁⟩ := alike (.accepted raw (beforeNul text ++ [0])) [0] ⟨rfl, rfl, rfl⟩ rfl
  obtain ⟨c₂, hc₂, same₂⟩ := alike (.accepted raw (beforeNul (text ++ more) ++ [0])) (t ++ [0])
    ⟨rfl, rfl, rfl⟩ (by rw [ht, List.append_assoc]; rfl)
  refine ⟨?_, ht ▸ h.append t⟩
  rw [parsedWhole, parsedWhole, hc₁, hc₂]
  exact congrArg Except.ok (same₂.trans same₁.symm)

theorem index_of_settled (h : Settled u 0) (index : c.queryStartIndex = 0)
    (buf : c.querybuf = u ++ t) (hc : processRequestLine c = .ok c')
    (reads : c'.toControl ≠ sent) :
    (∀ b ∈ beforeNul u, b ∉ blanks) ∧ c' = c ∨
    (∃ b ∈ beforeNul u, b ∈ blanks) ∧ c'.queryStartIndex ≠ 0 := by
  have hc : processRequestLine (c.withBuf (u ++ t)) = .ok c' := by rwa [← buf]
  rw [← index] at h
  rcases h with stops | ⟨p, r, hs, fits, later⟩
  · have same : processRequestLine (c.withBuf (u ++ t)) = .ok (c.withBuf (u ++ t)) :=
      requestWord_stops stops t
    rw [same, ← buf] at hc
    obtain ⟨p, r, text, clean⟩ := stops
    rw [index, List.drop_zero] at text
    refine .inl ⟨?_, (Except.ok.inj hc).symm⟩
    rw [text, beforeNul_nul (Clean.nul clean)]
    exact fun b hb blank => clean b hb (.inr blank)
  · obtain ⟨b, blank, ne, text, clean⟩ := id hs
    rw [index, List.drop_zero] at text
    refine .inr ⟨⟨b, ?_, blank⟩, ?_⟩
    · rw [text, beforeNul_append_of_not_mem (Clean.nul clean)]
      simp [beforeNul, ne]
    · rcases requestWord_split .method requestUri hs with ⟨-, f, hw⟩ | ⟨past, -⟩
      · have next := (hw t).symm.trans hc
        rcases parsed_of_requestUri next with complete | ⟨-, -, -, -, ahead⟩
        · exact absurd complete reads
        · have : c.queryStartIndex + (p.length + 1) ≤ c'.queryStartIndex := ahead
          omega
      · omega

end parse

namespace Delivery

variable {raw : Fields} {mem : Nat → UInt8} {d d' : Delivery} {segment : List UInt8}
  {c : WebConnection}

/-- The invariant: the state is that of a connection to which all came in one piece. -/
structure Follows (raw : Fields) (mem : Nat → UInt8) (d : Delivery) (c : WebConnection) : Prop where
  result : d.result = .ok (some c)
  whole : parsedWhole raw d.received = .ok (view c)
  control : c.toControl = ⟨.read, some .readRequest, none⟩ ∨
    c.toControl = sent ∧ Completed (beforeNul d.received) 0
  stands : c.toControl ≠ sent → Stands mem d.received c
  room : c.toControl ≠ sent → 0 ∉ d.received → remainBuffer ≤ c.queryRemainLen
  moved : c.toControl ≠ sent →
    (c.queryStartIndex = 0 ↔ ∀ b ∈ beforeNul d.received, b ∉ blanks)
  fields : c.toControl ≠ sent → c.queryStartIndex = 0 → c.toFields = raw

theorem Follows.reads (h : Follows raw mem d c) (hc : c.readHandler = some .readRequest) :
    c.toControl = ⟨.read, some .readRequest, none⟩ := by
  refine h.control.resolve_right ?_
  rintro ⟨done, -⟩
  rw [done] at hc
  cases hc

theorem exists_string {text : List UInt8} (stands : Stands mem text c)
    (takes : Takes mem text c.querybuf.length) (settled : Settled (beforeNul text ++ [0]) 0)
    (ended : 0 ∈ text ∨ mem text.length = 0 ∨ Completed text 0) :
    ∃ u t, c.querybuf = u ++ t ∧ Settled u 0 ∧ u <+: beforeNul text ++ [0] ∧
      beforeNul u = beforeNul text ∧ (Completed u 0 → Completed (beforeNul text) 0) := by
  by_cases nul : 0 ∉ text → mem text.length = 0
  · obtain ⟨t, buf⟩ := stands.string fun clean => by
      refine ⟨?_, nul clean⟩
      have inside := takes.inside
      rwa [beforeNul_of_not_mem clean] at inside
    refine ⟨beforeNul text ++ [0], t, by simp [buf], settled, List.prefix_rfl, ?_, ?_⟩
    · exact beforeNul_nul (not_mem_beforeNul _) []
    · exact fun complete => complete.of_concat (Nat.zero_le _)
  · obtain ⟨clean, stale⟩ := Classical.not_imp.mp nul
    have complete := (ended.resolve_left clean).resolve_left stale
    obtain ⟨t, buf, -⟩ := stands.holds
    rw [beforeNul_of_not_mem clean]
    exact ⟨text, t, buf, complete.settled, List.prefix_append _ _, beforeNul_of_not_mem clean, id⟩

theorem Follows.read (h : Follows raw mem d c) (hc : c.readHandler = some .readRequest)
    (whole : Whole mem d segment c) :
    ∃ c', Follows raw mem ⟨d.received ++ segment, readRequest mem segment c⟩ c' := by
  have control := h.reads hc
  have reads : c.toControl ≠ sent := by
    rw [control]
    decide
  have index := (h.moved reads).mpr whole.waited
  obtain ⟨c₁, hl, stands, unmoved, takes, room⟩ :=
    (h.stands reads).recvLoop whole.takes (fun _ => h.room reads) (Nat.lt_succ_self _)
  have fresh : Fresh raw c₁ := ⟨unmoved.control.trans control,
    unmoved.fields.trans (h.fields reads index), unmoved.index.trans index⟩
  obtain ⟨u, t, buf, settled, starts, string, complete⟩ :=
    exists_string stands takes whole.settled whole.ended
  obtain ⟨_, alike⟩ := parses_alike settled raw
  obtain ⟨c₂, hp, -⟩ := alike c₁ t fresh buf
  have parsed := parsed_of_processRequestLine hp
  have index₂ (reads : c₂.toControl ≠ sent) := index_of_settled settled fresh.index buf hp reads
  rw [string] at index₂
  have buffer (reads : c₂.toControl ≠ sent) : c₂.querybuf = c₁.querybuf ∧
      c₂.queryEndIndex = c₁.queryEndIndex ∧ c₂.queryRemainLen = c₁.queryRemainLen := by
    rcases parsed with done | ⟨-, buf, last, room, -⟩
    · exact absurd done reads
    · exact ⟨buf, last, room⟩
  refine ⟨c₂, ?_, parsedWhole_of_alike settled starts fresh buf hp, ?_, ?_, ?_, ?_, ?_⟩
  · simp only [readRequest, hl, ok_bind, hp]
    rfl
  · rcases parsed with done | ⟨same, -⟩
    · refine .inr ⟨done, complete ?_⟩
      have hp : processRequestLine (c₁.withBuf (u ++ t)) = .ok c₂ := by rwa [← buf]
      rw [← fresh.index] at settled ⊢
      refine settled.completed hp ?_
      rw [done, fresh.control]
      decide
    · exact .inl (same.trans fresh.control)
  · intro reads
    obtain ⟨buf, last, room⟩ := buffer reads
    obtain ⟨left, content, last'⟩ := stands.holds
    refine ⟨⟨left, buf.trans content, last.trans last'⟩, ?_, ?_⟩
    · rw [Reader.Fits, buf, last, room]
      exact stands.fits
    · rw [buf]
      exact stands.behind
  · intro reads nul
    rw [(buffer reads).2.2]
    exact room nul
  · intro reads
    rcases index₂ reads with ⟨waits, rfl⟩ | ⟨⟨b, hb, blank⟩, moved⟩
    · exact iff_of_true fresh.index waits
    · exact iff_of_false moved fun waits => waits b hb blank
  · intro reads still
    rcases index₂ reads with ⟨-, rfl⟩ | ⟨-, moved⟩
    · exact fresh.fields
    · exact absurd still moved

theorem Follows.step (h : Follows raw mem d c) (undivided : Undivided mem d segment)
    (hs : d.step mem segment = some d') : ∃ c', Follows raw mem d' c' := by
  simp only [Delivery.step] at hs
  split at hs
  case isTrue => cases hs
  case isFalse =>
    cases hs
    rw [Delivery.next, h.result, ok_bind]
    rcases h.control with reads | ⟨done, complete⟩
    · have hc : c.readHandler = some .readRequest := congrArg Control.readHandler reads
      have called : served mem segment (some c) = readRequest mem segment c := by
        simp only [served, hc]
      rw [called]
      exact h.read hc (undivided c h.result hc)
    · have hc : c.readHandler = some .emptyEventHandler := congrArg Control.readHandler done
      have idle : served mem segment (some c) = .ok (some c) := by
        simp only [served, hc]
      obtain ⟨same, later⟩ := parsedWhole_append raw complete segment
      rw [idle]
      exact ⟨c, rfl, same.trans h.whole, .inr ⟨done, later⟩, fun reads => absurd done reads,
        fun reads => absurd done reads, fun reads => absurd done reads,
        fun reads => absurd done reads⟩

def cut : Delivery :=
  ((start .zero fun _ => 0).next (fun _ => 0) [65]).next (fun _ => 0) (shortRequest.drop 1)

end Delivery

def getRequest : List UInt8 :=
  ['G', 'E', 'T', ' ', '/', ' ', 'H', 'T', 'T', 'P', '/', '1', '.', '1', '\r', '\n', '\r',
    '\n'].map Char.toUInt8

namespace Delivery

end Delivery

end Leano.Epoll
