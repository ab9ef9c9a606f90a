import Leano.Epoll.Buffer

namespace Leano.Epoll

open Leano.Lib Reader

structure Served where
  reader : Reader
  pending : List UInt8
  peerClosed : Bool

inductive ServedAct where
  | peerSends (data : List UInt8)
  | peerCloses
  | read (a : ReadAct)

namespace Served

def start (raw : Fields) (content : List UInt8) : Served := ⟨.start raw content, [], false⟩

/-- What `recv` may return. Asked for no bytes it returns 0 if there are some. -/
def possible (v : Served) : ReadAct → Prop
  | .recv data => data <+: v.pending
  | .wouldBlock => v.pending = [] ∧ v.peerClosed = false
  | .eof => v.pending = [] ∧ v.peerClosed = true ∨
      v.pending ≠ [] ∧ v.reader.conn.queryRemainLen = 0
  | .event => True
  | .enlarge _ => True

instance (v : Served) : (a : ReadAct) → Decidable (v.possible a)
  | .recv data => inferInstanceAs (Decidable (data <+: v.pending))
  | .wouldBlock => inferInstanceAs (Decidable (_ ∧ _))
  | .eof => inferInstanceAs (Decidable (_ ∨ _))
  | .event => isTrue trivial
  | .enlarge _ => isTrue trivial

def step (v : Served) : ServedAct → Option Served
  | .peerSends data =>
    if v.peerClosed = true then none else some { v with pending := v.pending ++ data }
  | .peerCloses => some { v with peerClosed := true }
  | .read a =>
    if v.possible a then
      (v.reader.step a).map fun r =>
        { v with reader := r, pending := v.pending.drop a.data.length }
    else none

structure Faithful (v : Served) : Prop where
  sound : v.reader.pc ≠ .broken
  closes : v.reader.pc = .closed → v.peerClosed = true
  kept : v.reader.reading → Holds v.reader.conn v.reader.received

def RoomLeft (r : Reader) : Prop :=
  0 ∈ r.received → r.received.length < (beforeNul r.received).length + queryInitLen

instance (r : Reader) : Decidable (RoomLeft r) := inferInstanceAs (Decidable (_ → _))

/-- Enlargements have a NUL in reach, the call of the parser is defined, and a `recv` for bytes that
are there is asked for some, unless the peer has closed its side. -/
def ReadsOn (v : Served) : ServedAct → Prop
  | .read .eof => v.pending ≠ [] → v.peerClosed = false →
      v.reader.conn.queryRemainLen < remainBuffer → RoomLeft v.reader
  | .read a => StaysDefined v.reader a
  | _ => True

instance (v : Served) : (a : ServedAct) → Decidable (ReadsOn v a)
  | .read .eof => inferInstanceAs (Decidable (_ → _ → _ → _))
  | .read .event => isTrue trivial
  | .read (.enlarge fill) => inferInstanceAs (Decidable (StaysDefined v.reader (.enlarge fill)))
  | .read (.recv _) => isTrue trivial
  | .read .wouldBlock => inferInstanceAs (Decidable (StaysDefined v.reader .wouldBlock))
  | .peerSends _ => isTrue trivial
  | .peerCloses => isTrue trivial

variable {v v' : Served} {r : Reader} {a : ReadAct} {fill : Nat → UInt8}

theorem step_read (h : v.step (.read a) = some v') :
    ∃ r, v.possible a ∧ Reader.Step v.reader a r ∧
      v' = { v with reader := r, pending := v.pending.drop a.data.length } := by
  simp only [Served.step] at h
  split at h
  case isTrue ok =>
    obtain ⟨r, hr, rfl⟩ := Option.map_eq_some_iff.mp h
    exact ⟨r, ok, Reader.step_cases hr, rfl⟩
  case isFalse => cases h

theorem staysDefined (ok : ReadsOn v (.read a)) : StaysDefined v.reader a := by
  cases a with
  | event | recv | eof => trivial
  | enlarge | wouldBlock => exact ok

end Served

section room

variable {r : Reader} {c' : WebConnection} {fill : Nat → UInt8}

theorem room_of_enlarge (h : Holds r.conn r.received) (reach : NulInReach r)
    (full : r.conn.queryRemainLen < remainBuffer)
    (ok : tryToEnlargeBuffer fill r.conn = .ok c') :
    c'.queryRemainLen = (beforeNul r.conn.querybuf).length + queryInitLen - r.received.length := by
  obtain ⟨left, content, last⟩ := h
  have nul : 0 ∈ r.conn.querybuf := by
    rw [content]
    by_cases mem : 0 ∈ r.received
    · exact List.mem_append_left _ mem
    · have free := reach.free mem
      rw [content, List.drop_left] at free
      exact List.mem_append_right _ free
  have small := reach.small
  have size : ((beforeNul r.conn.querybuf).length + queryInitLen : Nat) =
      toInt32 ((beforeNul r.conn.querybuf).length + queryInitLen) :=
    (toInt32_of_small (by omega) (by omega)).symm
  rw [enlarge_of_nul full nul size, if_neg (by omega)] at ok
  cases ok
  simp only [last]
  omega

theorem no_room_iff (h : Holds r.conn r.received) (reach : NulInReach r)
    (full : r.conn.queryRemainLen < remainBuffer)
    (ok : tryToEnlargeBuffer fill r.conn = .ok c') :
    c'.queryRemainLen = 0 ↔ ¬ Served.RoomLeft r := by
  rw [room_of_enlarge h reach full ok, Served.RoomLeft]
  obtain ⟨left, content, -⟩ := h
  by_cases mem : 0 ∈ r.received
  · have := reach.sent mem
    rw [content, beforeNul_append_of_mem mem]
    simp only [mem, forall_const]
    omega
  · rw [content, beforeNul_append_of_not_mem mem, List.length_append]
    simp only [mem, false_imp_iff, not_true_eq_false, iff_false, queryInitLen]
    omega

end room

namespace Served

variable {v v' : Served} {a : ServedAct}

structure Sound (v : Served) : Prop where
  reader : v.reader.Sound
  running : v.reader.pc ≠ .crashed
  closes : v.reader.pc = .closed → v.peerClosed = true
  room : v.reader.pc = .recv → v.reader.conn.queryRemainLen < remainBuffer →
    (v.reader.conn.queryRemainLen = 0 ↔ ¬ RoomLeft v.reader)

theorem Sound.faithful (h : Sound v) : Faithful v := ⟨h.reader.sound, h.closes, h.reader.holds⟩

theorem Sound.step (h : Sound v) (ok : ReadsOn v a) (hs : v.step a = some v') : Sound v' := by
  cases a with
  | peerSends data =>
    simp only [Served.step] at hs
    split at hs
    · cases hs
    · cases hs
      exact ⟨h.reader, h.running, h.closes, h.room⟩
  | peerCloses =>
    cases hs
    exact ⟨h.reader, h.running, fun _ => rfl, h.room⟩
  | read a =>
    obtain ⟨r, possible, hr, rfl⟩ := step_read hs
    have reader := h.reader.step (enlargesInReach (staysDefined ok)) hr
    have running := not_crashed_step (staysDefined ok) hr
    cases hr with
    | event | recv | wouldBlock | crash => exact ⟨reader, running, nofun, nofun⟩
    | enlargeFault | recvFault => exact absurd rfl reader.sound
    | eof hp =>
      refine ⟨reader, running, fun _ => ?_, nofun⟩
      rcases possible with ⟨-, closed⟩ | ⟨some, none⟩
      · exact closed
      · -- room that is left would be asked for
        by_contra opened
        have little : v.reader.conn.queryRemainLen < remainBuffer := by
          rw [none]
          decide
        exact (h.room hp little).mp none (ok some (Bool.eq_false_iff.mpr opened) little)
    | enlarge hp hc =>
      refine ⟨reader, running, nofun, fun _ little => ?_⟩
      have holds := h.reader.holds ⟨h.reader.busy (.inl hp), .inr (.inl hp)⟩
      by_cases full : v.reader.conn.queryRemainLen < remainBuffer
      · exact no_room_iff (r := v.reader) holds (ok full) full hc
      · cases hc.symm.trans (enlarge_of_room full)
        exact absurd little full

/-- What a step of the reader has to do. -/
def ReadsWell (v : Served) (a : ReadAct) : Prop :=
  ∀ w, v.step (.read a) = some w → Faithful w

theorem Sound.readsWell (h : Sound v) {a : ReadAct} (ok : ReadsOn v (.read a)) : ReadsWell v a :=
  fun _ hs => (h.step ok hs).faithful

theorem Sound.reach_of_enlarges (h : Sound v) (hp : v.reader.pc = .enlarge) {fill : Nat → UInt8}
    (well : ReadsWell v (.enlarge fill)) : EnlargesInReach v.reader (.enlarge fill) := by
  intro full
  have handler := h.reader.busy (.inl hp)
  have reading : v.reader.reading := ⟨handler, .inr (.inl hp)⟩
  cases hc : tryToEnlargeBuffer fill v.reader.conn with
  | error e =>
    have faithful := well { v with reader := { v.reader with pc := .broken } } (by
      simp [Served.step, possible, Reader.step, hp, hc, ReadAct.data])
    exact absurd rfl faithful.sound
  | ok c =>
    have faithful := well { v with reader := { v.reader with conn := c, pc := .recv } } (by
      simp [Served.step, possible, Reader.step, hp, hc, ReadAct.data])
    have control := congrArg Control.readHandler (enlarge_control hc)
    exact reach_of_enlarge (h.reader.holds reading) (h.reader.fits reading) full hc
      (faithful.kept ⟨control.trans handler, .inr (.inr rfl)⟩)

theorem Sound.room_of_closes (h : Sound v) (hp : v.reader.pc = .recv) (well : ReadsWell v .eof) :
    ReadsOn v (.read .eof) := by
  intro some opened little
  by_contra past
  have none := (h.room hp little).mpr past
  have faithful := well { v with reader := { v.reader with pc := .closed } } (by
    simp [Served.step, possible, Reader.step, hp, some, none, ReadAct.data])
  cases opened.symm.trans (faithful.closes rfl)

end Served

/-- In a run whose enlargements have a NUL in reach and leave room for what there is to receive,
nothing is lost, and a connection is closed only after its peer. The next enlargement, and the next
`recv` that returns 0, is as good if and only if this holds of it, too. -/
theorem reads_all {raw : Fields} {content : List UInt8} {v : Served}
    (length : content.length = queryInitLen)
    (h : ReachIf Served.step Served.ReadsOn (Served.start raw content) v) :
    v.Faithful ∧ v.reader.pc ≠ .crashed ∧
      (v.reader.pc = .enlarge → ∀ fill,
        v.ReadsWell (.enlarge fill) ↔ v.ReadsOn (.read (.enlarge fill))) ∧
      (v.reader.pc = .recv → (v.ReadsWell .eof ↔ v.ReadsOn (.read .eof))) := by
  have start : (Served.start raw content).Sound :=
    ⟨start_sound raw length, by simp [Served.start, Reader.start], nofun, nofun⟩
  have sound : v.Sound :=
    h.invariant (I := Served.Sound) start fun _ _ _ _ ih ok hs => ih.step ok hs
  exact ⟨sound.faithful, sound.running,
    fun hp _ => ⟨sound.reach_of_enlarges hp, sound.readsWell⟩,
    fun hp => ⟨sound.room_of_closes hp, sound.readsWell⟩⟩

theorem reads_all_enlarged : ∃ v : Served,
    (v.reader.conn.querybuf.length = 1624 ∧ v.reader.pc = .idle) ∧
    v.Faithful ∧ v.reader.pc ≠ .crashed ∧
      (v.reader.pc = .enlarge → ∀ fill,
        v.ReadsWell (.enlarge fill) ↔ v.ReadsOn (.read (.enlarge fill))) ∧
      (v.reader.pc = .recv → (v.ReadsWell .eof ↔ v.ReadsOn (.read .eof))) := by
  obtain ⟨v, hv, hp⟩ := exists_reachIf Served.step Served.ReadsOn
    (Served.start .zero (List.replicate 1024 0))
    [.peerSends (List.replicate 600 65), .read .event, .read (.enlarge fun _ => 0),
      .read (.recv (List.replicate 600 65)), .read (.enlarge fun _ => 0), .read .wouldBlock]
    (fun v => decide (v.reader.conn.querybuf.length = 1624 ∧ v.reader.pc = .idle))
    (by decide +kernel)
  exact ⟨v, of_decide_eq_true hp, reads_all List.length_replicate hv⟩

/-- A client that sends 1025 NULs is taken for gone. -/
theorem closed_on_peer : ¬ ∀ (raw : Fields) (content : List UInt8) (v : Served),
    content.length = queryInitLen → Reach Served.step (Served.start raw content) v →
      v.Faithful := by
  intro all
  obtain ⟨v, hv, hp⟩ := exists_reach Served.step
    (Served.start .zero (List.replicate 1024 0))
    [.peerSends (List.replicate 1025 0), .read .event, .read (.enlarge fun _ => 0),
      .read (.recv (List.replicate 1024 0)), .read (.enlarge fun _ => 0), .read .eof]
    (fun v => decide (v.reader.pc = .closed ∧ v.peerClosed = false)) (by decide +kernel)
  obtain ⟨closed, opened⟩ := of_decide_eq_true hp
  cases opened.symm.trans ((all _ _ v List.length_replicate hv).closes closed)

end Leano.Epoll
