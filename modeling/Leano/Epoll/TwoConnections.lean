import Leano.Epoll.Leftover
import Leano.Lib.Run

namespace Leano.Epoll

open Leano.Lib

def arrive (buf : List UInt8) (c : WebConnection) : Except Fault WebConnection :=
  match c.readHandler with
  | some .readRequest => processRequestLine (c.withBuf buf)
  | _ => .ok c

structure Pair where
  received : List UInt8
  one : Except Fault WebConnection
  other : Except Fault WebConnection

/-- A segment, with what either buffer holds behind the bytes received by then. -/
structure Arrival where
  segment : List UInt8
  leftover : List UInt8
  leftover' : List UInt8

namespace Pair

def start (raw : Fields) : Pair :=
  ⟨[], .ok (.accepted raw []), .ok (.accepted raw [])⟩

def next (p : Pair) (a : Arrival) : Pair where
  received := p.received ++ a.segment
  one := p.one >>= arrive (p.received ++ a.segment ++ a.leftover)
  other := p.other >>= arrive (p.received ++ a.segment ++ a.leftover')

def step (p : Pair) (a : Arrival) : Option Pair := some (p.next a)

def Agree (p : Pair) : Prop := SameOutcome p.one p.other

def SearchesSettle (p : Pair) (segment : List UInt8) : Prop :=
  ∀ c, p.one = .ok c → c.readHandler = some .readRequest →
    Settled (p.received ++ segment) c.queryStartIndex

def Reading (p : Pair) : Prop :=
  ∀ c, p.one = .ok c → c.readHandler = some .readRequest →
    c.state ≠ .sendData ∧ c.queryStartIndex ≤ p.received.length

variable {p : Pair} {segment l l' : List UInt8}

theorem withBuf_congr {c c' : WebConnection} (h : c.withBuf [] = c'.withBuf []) (b : List UInt8) :
    c.withBuf b = c'.withBuf b := by
  have equal := congrArg (fun c : WebConnection => c.withBuf b) h
  exact equal

theorem readHandler_congr {c c' : WebConnection} (h : c.withBuf [] = c'.withBuf []) :
    c.readHandler = c'.readHandler := by
  have equal := congrArg (fun c : WebConnection => c.readHandler) h
  exact equal

theorem agree_cases (h : p.Agree) :
    ∃ c c', p.one = .ok c ∧ p.other = .ok c' ∧ c.withBuf [] = c'.withBuf [] := by
  obtain ⟨_, one, other⟩ := h
  obtain ⟨c, hc, rfl⟩ := outcome_ok one
  obtain ⟨c', hc', same⟩ := outcome_ok other
  exact ⟨c, c', hc, hc', same.symm⟩

theorem arrive_reading {c : WebConnection} (h : c.readHandler = some .readRequest)
    (b : List UInt8) : arrive b c = processRequestLine (c.withBuf b) := by
  simp only [arrive, h]

theorem arrive_idle {c : WebConnection} (h : c.readHandler ≠ some .readRequest)
    (b : List UInt8) : arrive b c = .ok c := by
  unfold arrive
  split
  · contradiction
  · rfl

theorem Agree.next (h : p.Agree) (reads : p.Reading) (settle : p.SearchesSettle segment) :
    (p.next ⟨segment, l, l'⟩).Agree := by
  obtain ⟨c, c', h₁, h₂, equal⟩ := agree_cases h
  simp only [Agree, Pair.next, h₁, h₂, ok_bind]
  have control := readHandler_congr equal
  by_cases reading : c.readHandler = some .readRequest
  · have inside : c.queryStartIndex ≤ (p.received ++ segment).length := by
      have := (reads c h₁ reading).2
      rw [List.length_append]
      omega
    obtain ⟨result, hr⟩ := (settle c h₁ reading).determined inside
    rw [arrive_reading reading, arrive_reading (control ▸ reading), ← withBuf_congr equal]
    exact ⟨result, hr _, hr _⟩
  · rw [arrive_idle reading, arrive_idle (control ▸ reading)]
    exact ⟨_, congrArg Except.ok equal, rfl⟩

theorem Reading.next (h : p.Reading) (settle : p.SearchesSettle segment) :
    (p.next ⟨segment, l, l'⟩).Reading := by
  intro c' hc' reading'
  cases h₁ : p.one with
  | error e => simp [Pair.next, h₁] at hc'
  | ok c =>
    simp only [Pair.next, h₁, ok_bind] at hc'
    by_cases reading : c.readHandler = some .readRequest
    · obtain ⟨state, inside⟩ := h c h₁ reading
      rw [arrive_reading reading] at hc'
      have inside : c.queryStartIndex ≤ (p.received ++ segment).length := by
        rw [List.length_append]
        omega
      rcases (settle c h₁ reading).inside inside hc' with sent | inside'
      · rw [sent] at reading'
        cases reading'
      · rcases parsed_of_processRequestLine hc' with sent | ⟨control, -⟩
        · rw [sent] at reading'
          cases reading'
        · exact ⟨fun h => state ((congrArg Control.state control).symm.trans h), inside'⟩
    · rw [arrive_idle reading] at hc'
      cases hc'
      exact absurd reading' reading

theorem not_agree_next (h : p.Agree) (reading : p.Reading)
    (unsettled : ¬ p.SearchesSettle segment) :
    ¬ (p.next ⟨segment, quietLeftover, loudLeftover⟩).Agree := by
  unfold SearchesSettle at unsettled
  push Not at unsettled
  obtain ⟨c, h₁, hr, hs⟩ := unsettled
  obtain ⟨state, inside⟩ := reading c h₁ hr
  obtain ⟨_, c', h₁', h₂, equal⟩ := agree_cases h
  cases h₁.symm.trans h₁'
  have control := readHandler_congr equal
  simp only [Agree, Pair.next, h₁, h₂, ok_bind]
  rw [arrive_reading hr, arrive_reading (control ▸ hr), ← withBuf_congr equal]
  refine distinguished_of_not_settled hs state ?_
  rw [List.length_append]
  omega

end Pair

/-- In a run whose searches all end in the bytes received, the parser sees nothing else. Whatever is
in the buffers behind, the next call goes the same way for both connections if and only if its
searches end there, too. -/
theorem parses_what_was_sent {raw : Fields} {p : Pair}
    (h : ReachIf Pair.step (fun p a => p.SearchesSettle a.segment) (Pair.start raw) p) :
    p.Agree ∧ ∀ segment,
      (∀ l l', 512 ≤ l.length → 512 ≤ l'.length → (p.next ⟨segment, l, l'⟩).Agree) ↔
        p.SearchesSettle segment := by
  have inv : p.Agree ∧ p.Reading := by
    refine h.invariant (I := fun p => p.Agree ∧ p.Reading) ⟨⟨_, rfl, rfl⟩, ?_⟩ ?_
    · rintro c ⟨⟩ -
      exact ⟨nofun, le_rfl⟩
    · rintro p a _ - ⟨agree, reading⟩ settle ⟨⟩
      exact ⟨agree.next reading settle, reading.next settle⟩
  refine ⟨inv.1, fun segment => ⟨fun all => ?_, fun settle l l' _ _ => inv.1.next inv.2 settle⟩⟩
  by_contra unsettled
  exact Pair.not_agree_next inv.1 inv.2 unsettled
    (all _ _ quietLeftover_length.ge loudLeftover_length)

theorem parses_what_was_sent_once :
    ∃ p : Pair, (p.received = shortRequest ∧ ∃ c, p.one = .ok c ∧ c.state = .sendData) ∧
      p.Agree ∧ ∀ segment,
        (∀ l l', 512 ≤ l.length → 512 ≤ l'.length → (p.next ⟨segment, l, l'⟩).Agree) ↔
          p.SearchesSettle segment := by
  have settle : (Pair.start .zero).SearchesSettle shortRequest := by
    rintro c ⟨⟩ -
    exact completed_shortRequest.settled
  have run : ReachIf Pair.step (fun p a => p.SearchesSettle a.segment) (Pair.start .zero)
      ((Pair.start .zero).next ⟨shortRequest, [0], [32, 32]⟩) :=
    .next .start settle rfl
  exact ⟨_, ⟨rfl, _, rfl, rfl⟩, parses_what_was_sent run⟩

/-- Three bytes of a method, and a blank behind them in one of the buffers. -/
theorem leftover_parsed :
    ¬ ∀ (raw : Fields) (p : Pair), Reach Pair.step (Pair.start raw) p → p.Agree := by
  intro all
  obtain ⟨_, one, other⟩ := all .zero
    ((Pair.start .zero).next ⟨[71, 69, 84], quietLeftover, 32 :: quietLeftover⟩)
    (.next .start trivial rfl)
  have start := congrArg (fun r : Except Fault WebConnection =>
    r.toOption.map fun c => c.queryStartIndex) (one.trans other.symm)
  exact absurd start (by decide +kernel)

end Leano.Epoll
