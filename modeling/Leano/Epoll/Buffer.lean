import Leano.Epoll.Parser
import Leano.Lib.Run

namespace Leano.Epoll

open Leano.Lib

/-- Where `read_request` stands. `broken` is a fault of the buffer's management, `crashed` one of
the parser's. -/
inductive ReaderPc where
  | idle
  | enlarge
  | recv
  | closed
  | broken
  | crashed
  deriving DecidableEq

structure Reader where
  conn : WebConnection
  received : List UInt8
  pc : ReaderPc

inductive ReadAct where
  | event
  | enlarge (fill : Nat → UInt8)
  | recv (data : List UInt8)
  | wouldBlock
  | eof

def ReadAct.data : ReadAct → List UInt8
  | .recv data => data
  | _ => []

namespace Reader

def start (raw : Fields) (content : List UInt8) : Reader := ⟨.accepted raw content, [], .idle⟩

/-- `recv` delivers at most as much as it is asked for, and a negative length asks for anything. -/
def delivers (c : WebConnection) (data : List UInt8) : Prop :=
  data ≠ [] ∧ (0 ≤ c.queryRemainLen → data.length ≤ c.queryRemainLen)

instance (c : WebConnection) (data : List UInt8) : Decidable (delivers c data) :=
  inferInstanceAs (Decidable (data ≠ [] ∧ (0 ≤ c.queryRemainLen → data.length ≤ c.queryRemainLen)))

def step (r : Reader) : ReadAct → Option Reader
  | .event =>
    if r.pc = .idle ∧ r.conn.readHandler = some .readRequest then some { r with pc := .enlarge }
    else none
  | .enlarge fill =>
    if r.pc = .enlarge then
      match tryToEnlargeBuffer fill r.conn with
      | .ok c => some { r with conn := c, pc := .recv }
      | .error _ => some { r with pc := .broken }
    else none
  | .recv data =>
    if r.pc = .recv ∧ delivers r.conn data then
      match recvData data r.conn with
      | .ok c => some ⟨c, r.received ++ data, .enlarge⟩
      | .error _ => some { r with pc := .broken }
    else none
  | .wouldBlock =>
    if r.pc = .recv then
      match processRequestLine r.conn with
      | .ok c => some { r with conn := c, pc := .idle }
      | .error _ => some { r with pc := .crashed }
    else none
  | .eof => if r.pc = .recv then some { r with pc := .closed } else none

inductive Step (r : Reader) : ReadAct → Reader → Prop
  | event : r.pc = .idle → r.conn.readHandler = some .readRequest →
      Step r .event { r with pc := .enlarge }
  | enlarge {fill c} : r.pc = .enlarge → tryToEnlargeBuffer fill r.conn = .ok c →
      Step r (.enlarge fill) { r with conn := c, pc := .recv }
  | enlargeFault {fill e} : r.pc = .enlarge → tryToEnlargeBuffer fill r.conn = .error e →
      Step r (.enlarge fill) { r with pc := .broken }
  | recv {data c} : r.pc = .recv → delivers r.conn data → recvData data r.conn = .ok c →
      Step r (.recv data) ⟨c, r.received ++ data, .enlarge⟩
  | recvFault {data e} : r.pc = .recv → delivers r.conn data → recvData data r.conn = .error e →
      Step r (.recv data) { r with pc := .broken }
  | wouldBlock {c} : r.pc = .recv → processRequestLine r.conn = .ok c →
      Step r .wouldBlock { r with conn := c, pc := .idle }
  | crash {e} : r.pc = .recv → processRequestLine r.conn = .error e →
      Step r .wouldBlock { r with pc := .crashed }
  | eof : r.pc = .recv → Step r .eof { r with pc := .closed }

theorem step_cases {r r' : Reader} {a : ReadAct} (h : step r a = some r') : Step r a r' := by
  cases a with
  | event =>
    simp only [step] at h
    split at h
    case isTrue hp => cases h; exact .event hp.1 hp.2
    case isFalse => cases h
  | enlarge fill =>
    simp only [step] at h
    split at h
    case isTrue hp =>
      split at h
      case h_1 hc => cases h; exact .enlarge hp hc
      case h_2 hc => cases h; exact .enlargeFault hp hc
    case isFalse => cases h
  | recv data =>
    simp only [step] at h
    split at h
    case isTrue hp =>
      split at h
      case h_1 hc => cases h; exact .recv hp.1 hp.2 hc
      case h_2 hc => cases h; exact .recvFault hp.1 hp.2 hc
    case isFalse => cases h
  | wouldBlock =>
    simp only [step] at h
    split at h
    case isTrue hp =>
      split at h
      case h_1 hc => cases h; exact .wouldBlock hp hc
      case h_2 hc => cases h; exact .crash hp hc
    case isFalse => cases h
  | eof =>
    simp only [step] at h
    split at h
    case isTrue hp => cases h; exact .eof hp
    case isFalse => cases h

/-- Still reading the request: `process_body` resets the indices when it is complete. -/
def reading (r : Reader) : Prop :=
  r.conn.readHandler = some .readRequest ∧
    (r.pc = .idle ∨ r.pc = .enlarge ∨ r.pc = .recv)

def Holds (c : WebConnection) (received : List UInt8) : Prop :=
  ∃ left, c.querybuf = received ++ left ∧ c.queryEndIndex = received.length

def Fits (c : WebConnection) : Prop := c.queryEndIndex + c.queryRemainLen = c.querybuf.length

/-- What the client has sent from its first NUL on fits into what an enlargement leaves behind that
NUL; before the client has sent one, the free rest of the allocation has one. -/
structure NulInReach (r : Reader) : Prop where
  sent : 0 ∈ r.received → r.received.length ≤ (beforeNul r.received).length + queryInitLen
  free : 0 ∉ r.received → 0 ∈ r.conn.querybuf.drop r.received.length
  small : (beforeNul r.conn.querybuf).length + queryInitLen < 2 ^ 31

instance (r : Reader) : Decidable (NulInReach r) :=
  decidable_of_iff
    ((0 ∈ r.received → r.received.length ≤ (beforeNul r.received).length + queryInitLen) ∧
      (0 ∉ r.received → 0 ∈ r.conn.querybuf.drop r.received.length) ∧
      (beforeNul r.conn.querybuf).length + queryInitLen < 2 ^ 31)
    ⟨fun h => ⟨h.1, h.2.1, h.2.2⟩, fun h => ⟨h.sent, h.free, h.small⟩⟩

def EnlargesInReach (r : Reader) : ReadAct → Prop
  | .enlarge _ => r.conn.queryRemainLen < remainBuffer → NulInReach r
  | _ => True

instance (r : Reader) : (a : ReadAct) → Decidable (EnlargesInReach r a)
  | .enlarge _ => inferInstanceAs (Decidable (r.conn.queryRemainLen < remainBuffer → NulInReach r))
  | .event => .isTrue trivial
  | .recv _ => .isTrue trivial
  | .wouldBlock => .isTrue trivial
  | .eof => .isTrue trivial

def Parses (c : WebConnection) : Prop := (processRequestLine c).isOk = true

instance (c : WebConnection) : Decidable (Parses c) := inferInstanceAs (Decidable (_ = _))

def StaysDefined (r : Reader) : ReadAct → Prop
  | .enlarge fill => EnlargesInReach r (.enlarge fill)
  | .wouldBlock => Parses r.conn
  | _ => True

instance (r : Reader) : (a : ReadAct) → Decidable (StaysDefined r a)
  | .enlarge fill => inferInstanceAs (Decidable (EnlargesInReach r (.enlarge fill)))
  | .wouldBlock => inferInstanceAs (Decidable (Parses r.conn))
  | .event => .isTrue trivial
  | .recv _ => .isTrue trivial
  | .eof => .isTrue trivial

structure Safe (r : Reader) : Prop where
  sound : r.pc ≠ .broken
  room : r.pc = .recv → 0 ≤ r.conn.queryEndIndex ∧ 0 ≤ r.conn.queryRemainLen ∧
    r.conn.queryEndIndex + r.conn.queryRemainLen ≤ r.conn.querybuf.length
  kept : r.reading → Holds r.conn r.received

end Reader

open Reader

section recv

variable {c c' : WebConnection} {received data : List UInt8}

theorem recvData_of_holds (h : Holds c received) (fits : Fits c) (hd : delivers c data) :
    ∃ c', recvData data c = .ok c' ∧ Holds c' (received ++ data) ∧ Fits c' := by
  obtain ⟨left, content, last⟩ := h
  have free : c.queryRemainLen = left.length := by
    have := fits
    rw [Fits, content, last, List.length_append] at this
    omega
  have room : data.length ≤ left.length := by
    have := hd.2 (by omega)
    omega
  have inside : 0 ≤ c.queryEndIndex ∧ c.queryEndIndex + data.length ≤ c.querybuf.length := by
    rw [content, last, List.length_append]
    omega
  refine ⟨_, if_pos inside, ⟨left.drop data.length, ?_, ?_⟩, ?_⟩
  · simp [content, last, List.drop_append]
  · simp [last]
  · simp only [Fits, content, last, free, List.length_append, List.length_take, List.length_drop]
    omega

theorem recvData_control (h : recvData data c = .ok c') : c'.toControl = c.toControl := by
  unfold recvData at h
  split at h
  · cases h
    rfl
  · cases h

end recv

section enlarge

variable {c : WebConnection} {received : List UInt8} {fill : Nat → UInt8}

theorem toInt32_of_small {n : Int} (h₀ : 0 ≤ n) (h : n < 2 ^ 31) : toInt32 n = n := by
  rw [toInt32, Int.bmod_eq_of_le] <;> omega

theorem toInt32_cases (n : Int) : n < 2 ^ 31 ∨ toInt32 n ≤ n - 2 ^ 32 := by
  rw [toInt32, Int.bmod_def]
  split <;> omega

theorem realloc_length (buf : List UInt8) (size : Nat) : (realloc fill buf size).length = size := by
  simp only [realloc, List.length_append, List.length_take, List.length_map, List.length_range]
  omega

theorem realloc_append (fill : Nat → UInt8) (left : List UInt8) {size : Nat}
    (h : received.length ≤ size) :
    ∃ left', realloc fill (received ++ left) size = received ++ left' := by
  rw [realloc, List.take_append, List.take_of_length_le h, List.append_assoc]
  exact ⟨_, rfl⟩

theorem enlarge_of_room (h : ¬ c.queryRemainLen < remainBuffer) :
    tryToEnlargeBuffer fill c = .ok c := if_neg h

theorem enlarge_of_nul (h : c.queryRemainLen < remainBuffer) (nul : 0 ∈ c.querybuf) {size : Int}
    (hs : size = toInt32 ((beforeNul c.querybuf).length + queryInitLen)) :
    tryToEnlargeBuffer fill c =
      if size < 0 then .error .null
      else .ok { c with
        querybuf := realloc fill c.querybuf size.toNat
        queryRemainLen := size - c.queryEndIndex } := by
  rw [tryToEnlargeBuffer, if_pos h, strlen_eq, if_pos nul, hs]

theorem enlarge_of_clean (h : c.queryRemainLen < remainBuffer) (nul : 0 ∉ c.querybuf) :
    tryToEnlargeBuffer fill c = .error .overrun := by
  rw [tryToEnlargeBuffer, if_pos h, strlen_eq, if_neg nul]

theorem enlarge_control {c' : WebConnection} (h : tryToEnlargeBuffer fill c = .ok c') :
    c'.toControl = c.toControl := by
  unfold tryToEnlargeBuffer at h
  split at h
  · split at h
    · cases h
    · dsimp only at h
      split at h
      · cases h
      · cases h
        rfl
  · cases h
    rfl

theorem enlarge_of_reach {r : Reader} (h : Holds r.conn r.received) (fits : Fits r.conn)
    (reach : r.conn.queryRemainLen < remainBuffer → NulInReach r) :
    ∃ c', tryToEnlargeBuffer fill r.conn = .ok c' ∧ Holds c' r.received ∧ Fits c' := by
  by_cases full : r.conn.queryRemainLen < remainBuffer
  · obtain ⟨left, content, last⟩ := h
    obtain ⟨sent, free, small⟩ := reach full
    rw [content, List.drop_left] at free
    have nul : 0 ∈ r.conn.querybuf := by
      rw [content]
      by_cases mem : 0 ∈ r.received
      · exact List.mem_append_left _ mem
      · exact List.mem_append_right _ (free mem)
    have size : toInt32 ((beforeNul r.conn.querybuf).length + queryInitLen) =
        ((beforeNul r.conn.querybuf).length + queryInitLen : Nat) := by
      rw [toInt32_of_small] <;> omega
    have enough : r.received.length ≤ (beforeNul r.conn.querybuf).length + queryInitLen := by
      by_cases mem : 0 ∈ r.received
      · rw [content, beforeNul_append_of_mem mem]
        exact sent mem
      · rw [content, beforeNul_append_of_not_mem mem, List.length_append]
        omega
    obtain ⟨left', kept⟩ := realloc_append fill left enough
    refine ⟨_, (enlarge_of_nul full nul size.symm).trans (if_neg (by omega)), ⟨left', ?_, last⟩, ?_⟩
    · rw [← kept, ← content]
      rfl
    · simp only [Fits, Int.toNat_natCast, realloc_length]
      omega
  · exact ⟨_, enlarge_of_room full, h, fits⟩

/-- Only an enlargement with the NUL in reach does. -/
theorem reach_of_enlarge {r : Reader} {c' : WebConnection} (h : Holds r.conn r.received)
    (fits : Fits r.conn) (full : r.conn.queryRemainLen < remainBuffer)
    (ok : tryToEnlargeBuffer fill r.conn = .ok c') (kept : Holds c' r.received) :
    NulInReach r := by
  obtain ⟨left, content, last⟩ := h
  have nul : 0 ∈ r.conn.querybuf := by
    by_contra clean
    rw [enlarge_of_clean full clean] at ok
    cases ok
  have z := beforeNul_length_lt nul
  have length := fits
  rw [Fits, content, last, List.length_append] at length
  rw [content, List.length_append] at z
  have full : r.conn.queryRemainLen < 512 := full
  obtain ⟨left', kept, -⟩ := kept
  have cut : ∀ size : Int, size = toInt32 ((beforeNul r.conn.querybuf).length + queryInitLen) →
      (r.received.length : Int) ≤ size := by
    intro size hs
    rw [enlarge_of_nul full nul hs] at ok
    split at ok
    · cases ok
    · cases ok
      have := congrArg List.length kept
      simp only [realloc_length, List.length_append] at this
      omega
  have cut := cut _ rfl
  have small : (beforeNul r.conn.querybuf).length + queryInitLen < 2 ^ 31 := by
    rcases toInt32_cases ((beforeNul r.conn.querybuf).length + queryInitLen) with small | wrapped
    · omega
    · rw [content] at wrapped cut
      simp only [queryInitLen] at wrapped cut
      omega
  rw [toInt32_of_small (by omega) (by omega)] at cut
  refine ⟨fun mem => ?_, fun clean => ?_, small⟩
  · rw [content, beforeNul_append_of_mem mem] at cut
    omega
  · rw [content] at nul ⊢
    rw [List.drop_left]
    exact (List.mem_append.mp nul).resolve_left clean

end enlarge

namespace Reader

/-- The invariant: while the connection is reading, its buffer is what was received and free room,
and the two indices say where the one ends and how much there is of the other. -/
structure Sound (r : Reader) : Prop where
  sound : r.pc ≠ .broken
  busy : r.pc = .enlarge ∨ r.pc = .recv → r.conn.readHandler = some .readRequest
  holds : r.reading → Holds r.conn r.received
  fits : r.reading → Fits r.conn

variable {r r' : Reader} {a : ReadAct}

theorem Sound.safe (h : Sound r) : Safe r where
  sound := h.sound
  room := by
    intro hp
    have reading : r.reading := ⟨h.busy (.inr hp), .inr (.inr hp)⟩
    obtain ⟨left, content, last⟩ := h.holds reading
    have fits := h.fits reading
    rw [Fits] at fits
    have length : r.conn.querybuf.length = r.received.length + left.length := by
      rw [content, List.length_append]
    omega
  kept := h.holds

theorem Sound.step (h : Sound r) (hok : EnlargesInReach r a) (hs : Step r a r') : Sound r' := by
  cases hs with
  | event hp handler =>
    have reading : r.reading := ⟨handler, .inl hp⟩
    exact ⟨nofun, fun _ => handler, fun _ => h.holds reading, fun _ => h.fits reading⟩
  | enlarge hp hc =>
    have handler := h.busy (.inl hp)
    have reading : r.reading := ⟨handler, .inr (.inl hp)⟩
    obtain ⟨c', hc', holds, fits⟩ := enlarge_of_reach (h.holds reading) (h.fits reading) hok
    cases hc.symm.trans hc'
    have same := congrArg Control.readHandler (enlarge_control hc)
    exact ⟨nofun, fun _ => same.trans handler, fun _ => holds, fun _ => fits⟩
  | enlargeFault hp hc =>
    have reading : r.reading := ⟨h.busy (.inl hp), .inr (.inl hp)⟩
    obtain ⟨c', hc', -⟩ := enlarge_of_reach (h.holds reading) (h.fits reading) hok
    cases hc.symm.trans hc'
  | recv hp hd hc =>
    have handler := h.busy (.inr hp)
    have reading : r.reading := ⟨handler, .inr (.inr hp)⟩
    obtain ⟨c', hc', holds, fits⟩ := recvData_of_holds (h.holds reading) (h.fits reading) hd
    cases hc.symm.trans hc'
    have same := congrArg Control.readHandler (recvData_control hc)
    exact ⟨nofun, fun _ => same.trans handler, fun _ => holds, fun _ => fits⟩
  | recvFault hp hd hc =>
    have reading : r.reading := ⟨h.busy (.inr hp), .inr (.inr hp)⟩
    obtain ⟨c', hc', -⟩ := recvData_of_holds (h.holds reading) (h.fits reading) hd
    cases hc.symm.trans hc'
  | @wouldBlock c hp hc =>
    have reading : r.reading := ⟨h.busy (.inr hp), .inr (.inr hp)⟩
    refine ⟨nofun, nofun, fun still => ?_, fun still => ?_⟩
    all_goals rcases parsed_of_processRequestLine hc with complete | ⟨-, buf, last, room, -⟩
    · cases (congrArg Control.readHandler complete).symm.trans still.1
    · obtain ⟨left, content, last'⟩ := h.holds reading
      exact ⟨left, buf.trans content, last.trans last'⟩
    · cases (congrArg Control.readHandler complete).symm.trans still.1
    · have fits := h.fits reading
      rw [Fits] at fits ⊢
      simp only
      rw [buf, last, room, fits]
  | crash => exact ⟨nofun, nofun, fun h => by simp [reading] at h, fun h => by simp [reading] at h⟩
  | eof => exact ⟨nofun, nofun, fun h => by simp [reading] at h, fun h => by simp [reading] at h⟩

theorem enlargesInReach (ok : StaysDefined r a) : EnlargesInReach r a := by
  cases a with
  | enlarge fill => exact ok
  | event | recv | wouldBlock | eof => trivial

theorem parses_iff {c : WebConnection} : Parses c ↔ ∃ c', processRequestLine c = .ok c' := by
  unfold Parses
  cases processRequestLine c with
  | error e => simp [Except.isOk, Except.toBool]
  | ok c' => simp [Except.isOk, Except.toBool]

theorem not_crashed_step (ok : StaysDefined r a) (hs : Step r a r') : r'.pc ≠ .crashed := by
  cases hs with
  | crash _ hc =>
    obtain ⟨c', hc'⟩ := parses_iff.mp ok
    cases hc.symm.trans hc'
  | event | enlarge | enlargeFault | recv | recvFault | wouldBlock | eof => nofun

theorem start_sound (raw : Fields) {content : List UInt8} (h : content.length = queryInitLen) :
    Sound (start raw content) where
  sound := nofun
  busy := nofun
  holds := fun _ => ⟨content, rfl, rfl⟩
  fits := fun _ => by
    simp [Fits, start, WebConnection.accepted, WebConnection.initConnection, h]

end Reader

/-- In a run that enlarges the buffer only with a NUL in reach, all accesses stay inside of it and
nothing received is cut off. The next enlargement is as good if and only if it has one, too. -/
theorem buffer_safe {raw : Fields} {content : List UInt8} {r : Reader}
    (length : content.length = queryInitLen)
    (h : ReachIf Reader.step StaysDefined (Reader.start raw content) r) :
    Safe r ∧ r.pc ≠ .crashed ∧ (r.pc = .enlarge → ∀ fill,
      (∃ r', Reader.step r (.enlarge fill) = some r' ∧ Safe r') ↔
        EnlargesInReach r (.enlarge fill)) := by
  obtain ⟨sound, running⟩ : Sound r ∧ r.pc ≠ .crashed := by
    refine h.invariant (I := fun r => Sound r ∧ r.pc ≠ .crashed) ?_ ?_
    · exact ⟨start_sound raw length, by simp [Reader.start]⟩
    · rintro r a r' _ ⟨ih, -⟩ ok hs
      have hs := step_cases hs
      exact ⟨ih.step (enlargesInReach ok) hs, not_crashed_step ok hs⟩
  refine ⟨sound.safe, running, fun hp fill => ⟨?_, fun hok => ?_⟩⟩
  · rintro ⟨r', hs, safe⟩ full
    have handler := sound.busy (.inl hp)
    have reading : r.reading := ⟨handler, .inr (.inl hp)⟩
    cases step_cases hs with
    | enlarge _ hc =>
      have kept := safe.kept
        ⟨(congrArg Control.readHandler (enlarge_control hc)).trans handler, .inr (.inr rfl)⟩
      exact reach_of_enlarge (sound.holds reading) (sound.fits reading) full hc kept
    | enlargeFault => exact absurd rfl safe.sound
  · obtain ⟨r', hs⟩ : ∃ r', Reader.step r (.enlarge fill) = some r' := by
      simp only [Reader.step, hp, if_true]
      split <;> exact ⟨_, rfl⟩
    exact ⟨r', hs, (sound.step hok (step_cases hs)).safe⟩

theorem buffer_safe_enlarged :
    ∃ r : Reader, (r.pc = .idle ∧ r.conn.queryStartIndex = 10 ∧ r.conn.querybuf.length = 1624) ∧
      Safe r ∧ r.pc ≠ .crashed ∧ (r.pc = .enlarge → ∀ fill,
        (∃ r', Reader.step r (.enlarge fill) = some r' ∧ Safe r') ↔
          EnlargesInReach r (.enlarge fill)) := by
  obtain ⟨r, hr, hp⟩ := exists_reachIf Reader.step StaysDefined
    (Reader.start .zero (List.replicate 1024 0))
    [.event, .enlarge fun _ => 0, .recv (List.replicate 9 65 ++ 32 :: List.replicate 590 66),
      .enlarge fun _ => 0, .wouldBlock]
    (fun r => decide (r.pc = .idle ∧ r.conn.queryStartIndex = 10 ∧
      r.conn.querybuf.length = 1624)) (by decide +kernel)
  exact ⟨r, of_decide_eq_true hp, buffer_safe List.length_replicate hr⟩

/-- A client that sends 1024 bytes without a NUL makes `strlen` run off the allocation. -/
theorem buffer_overrun :
    ¬ ∀ (raw : Fields) (content : List UInt8) (r : Reader), content.length = queryInitLen →
      Reach Reader.step (Reader.start raw content) r → Safe r := by
  intro all
  obtain ⟨r, hr, hp⟩ := exists_reach Reader.step
    (Reader.start .zero (List.replicate 1024 0))
    [.event, .enlarge fun _ => 0, .recv (List.replicate 1024 65), .enlarge fun _ => 0]
    (fun r => decide (r.pc = .broken)) (by decide +kernel)
  exact (all _ _ r List.length_replicate hr).sound (of_decide_eq_true hp)

end Leano.Epoll
