import Leano.Epoll.PeerClose

namespace Leano.Epoll

open Leano.Lib Reader

inductive Recv where
  | wouldBlock (c : WebConnection)
  | eof
  | data (c : WebConnection) (pending : List UInt8)

def asked (c : WebConnection) (pending : List UInt8) : Nat :=
  if c.queryRemainLen < 0 then pending.length else c.queryRemainLen.toNat

/-- One round, with `pending` in the socket. A `recv` for no bytes returns 0 if there are some. -/
def recvRound (fill : Nat → UInt8) (pending : List UInt8) (c : WebConnection) :
    Except Fault Recv := do
  let c ← tryToEnlargeBuffer fill c
  let data := pending.take (asked c pending)
  if pending = [] then return .wouldBlock c
  else if data = [] then return .eof
  else return .data (← recvData data c) (pending.drop (asked c pending))

def recvLoop (fill : Nat → UInt8) :
    Nat → List UInt8 → WebConnection → Except Fault (Option WebConnection)
  | 0, _, _ => .ok none
  | n + 1, pending, c => do
    match ← recvRound fill pending c with
    | .wouldBlock c => return some c
    | .eof => return none
    | .data c pending => recvLoop fill n pending c

def readRequest (fill : Nat → UInt8) (segment : List UInt8) (c : WebConnection) :
    Except Fault (Option WebConnection) := do
  match ← recvLoop fill (segment.length + 1) segment c with
  | none => return none
  | some c => return some (← processRequestLine c)

def opened (raw : Fields) (mem : Nat → UInt8) : WebConnection :=
  .accepted raw ((List.range queryInitLen).map mem)

section reader

variable {fill : Nat → UInt8} {received pending : List UInt8} {c c' : WebConnection}

theorem delivers_take (h : pending.take (asked c pending) ≠ []) :
    Reader.delivers c (pending.take (asked c pending)) := by
  refine ⟨h, fun room => ?_⟩
  rw [asked, if_neg (by omega), List.length_take]
  omega

inductive Round (fill : Nat → UInt8) (pending : List UInt8) (c : WebConnection) : Recv → Prop
  | wouldBlock {c₁} : tryToEnlargeBuffer fill c = .ok c₁ → pending = [] →
      Round fill pending c (.wouldBlock c₁)
  | eof {c₁} : tryToEnlargeBuffer fill c = .ok c₁ → pending ≠ [] →
      pending.take (asked c₁ pending) = [] → Round fill pending c .eof
  | data {c₁ c₂} : tryToEnlargeBuffer fill c = .ok c₁ → pending.take (asked c₁ pending) ≠ [] →
      recvData (pending.take (asked c₁ pending)) c₁ = .ok c₂ →
      Round fill pending c (.data c₂ (pending.drop (asked c₁ pending)))

theorem recvRound_cases {r : Recv} (h : recvRound fill pending c = .ok r) :
    Round fill pending c r := by
  obtain ⟨c₁, he, h⟩ := bind_eq_ok h
  by_cases empty : pending = []
  · rw [if_pos empty] at h
    cases h
    exact .wouldBlock he empty
  · rw [if_neg empty] at h
    by_cases nothing : pending.take (asked c₁ pending) = []
    · rw [if_pos nothing] at h
      cases h
      exact .eof he empty nothing
    · rw [if_neg nothing] at h
      obtain ⟨c₂, hr, h⟩ := bind_eq_ok h
      cases h
      exact .data he nothing hr

def open_ (c : WebConnection) (received : List UInt8) (pc : ReaderPc) (pending : List UInt8) :
    Served := ⟨⟨c, received, pc⟩, pending, false⟩

theorem reach_enlarge {c₁ : WebConnection} (he : tryToEnlargeBuffer fill c = .ok c₁) :
    Reach Served.step (open_ c received .enlarge pending) (open_ c₁ received .recv pending) := by
  refine .next .start trivial (a := .read (.enlarge fill)) ?_
  simp [Served.step, Served.possible, Reader.step, open_, he, ReadAct.data]

theorem reach_of_recvLoop {n : Nat} (hn : pending.length < n)
    (h : recvLoop fill n pending c = .ok (some c')) :
    Reach Served.step (open_ c received .enlarge pending)
      (open_ c' (received ++ pending) .recv []) := by
  induction n generalizing pending c received with
  | zero => cases hn
  | succ n ih =>
    obtain ⟨r, hr, h⟩ := bind_eq_ok h
    cases recvRound_cases hr with
    | wouldBlock he empty =>
      cases h
      subst empty
      rw [List.append_nil]
      exact reach_enlarge he
    | eof => cases h
    | @data c₁ c₂ he some hd =>
      have recv : Reach Served.step (open_ c received .enlarge pending)
          (open_ c₂ (received ++ pending.take (asked c₁ pending)) .enlarge
            (pending.drop (asked c₁ pending))) := by
        refine .next (reach_enlarge he) trivial
          (a := .read (.recv (pending.take (asked c₁ pending)))) ?_
        simp [Served.step, Served.possible, Reader.step, open_, List.take_prefix,
          delivers_take some, hd, ReadAct.data]
      have taken := List.length_pos_iff.mpr some
      have shorter : (pending.drop (asked c₁ pending)).length < n := by
        rw [List.length_take] at taken
        rw [List.length_drop]
        omega
      have later := recv.trans (ih shorter h)
      rwa [List.append_assoc, List.take_append_drop] at later

end reader

structure Unmoved (c c' : WebConnection) : Prop where
  control : c'.toControl = c.toControl
  fields : c'.toFields = c.toFields
  index : c'.queryStartIndex = c.queryStartIndex

theorem Unmoved.refl (c : WebConnection) : Unmoved c c := ⟨rfl, rfl, rfl⟩

theorem Unmoved.trans {c₁ c₂ c₃ : WebConnection} (h : Unmoved c₁ c₂) (k : Unmoved c₂ c₃) :
    Unmoved c₁ c₃ :=
  ⟨k.control.trans h.control, k.fields.trans h.fields, k.index.trans h.index⟩

/-- The buffer of a connection that is reading: all it has received, and memory that was never
written behind. -/
structure Stands (mem : Nat → UInt8) (received : List UInt8) (c : WebConnection) : Prop where
  holds : Reader.Holds c received
  fits : Reader.Fits c
  behind : ∀ i, received.length ≤ i → i < c.querybuf.length → c.querybuf[i]? = some (mem i)

/-- A buffer of `size` bytes takes `text`: there is a NUL wherever it is enlarged, the client's own
or one right behind what it has sent, and no enlargement cuts anything off. -/
structure Takes (mem : Nat → UInt8) (text : List UInt8) (size : Nat) : Prop where
  ended : 0 ∉ text → mem text.length = 0 ∨ text.length + 512 ≤ size
  inside : (beforeNul text).length < size
  kept : text.length ≤ (beforeNul text).length + queryInitLen
  small : (beforeNul text).length + queryInitLen < 2 ^ 31

section stands

variable {mem : Nat → UInt8} {received pending text data : List UInt8} {c c' : WebConnection}

theorem enlarge_unmoved {fill : Nat → UInt8} (h : tryToEnlargeBuffer fill c = .ok c') :
    Unmoved c c' := by
  unfold tryToEnlargeBuffer at h
  split at h
  case isTrue =>
    split at h
    case h_1 => cases h
    case h_2 =>
      dsimp only at h
      split at h
      case isTrue => cases h
      case isFalse =>
        cases h
        exact ⟨rfl, rfl, rfl⟩
  case isFalse =>
    cases h
    exact .refl c

theorem recvData_unmoved (h : recvData data c = .ok c') : Unmoved c c' := by
  unfold recvData at h
  split at h
  case isTrue =>
    cases h
    exact ⟨rfl, rfl, rfl⟩
  case isFalse => cases h

theorem Stands.room (h : Stands mem received c) :
    c.queryRemainLen = c.querybuf.length - received.length := by
  obtain ⟨left, content, last⟩ := h.holds
  have fits := h.fits
  rw [Reader.Fits, last] at fits
  omega

theorem Stands.string (h : Stands mem received c)
    (behind : 0 ∉ received → received.length < c.querybuf.length ∧ mem received.length = 0) :
    ∃ tail, c.querybuf = beforeNul received ++ 0 :: tail := by
  obtain ⟨left, content, -⟩ := h.holds
  by_cases nul : 0 ∈ received
  · obtain ⟨w, t, rfl, hw⟩ := List.eq_append_cons_of_mem nul
    refine ⟨t ++ left, ?_⟩
    rw [content, beforeNul_nul hw, List.append_assoc, List.cons_append]
  · obtain ⟨more, ended⟩ := behind nul
    have first := h.behind _ le_rfl more
    rw [ended, content, List.getElem?_append_right le_rfl, Nat.sub_self] at first
    cases left with
    | nil => cases first
    | cons b left =>
      obtain rfl : b = 0 := Option.some.inj first
      refine ⟨left, ?_⟩
      rw [content, beforeNul_of_not_mem nul]

theorem Stands.enlarge (h : Stands mem received c)
    (reach : c.queryRemainLen < remainBuffer → Reader.NulInReach ⟨c, received, .enlarge⟩) :
    ∃ c', tryToEnlargeBuffer mem c = .ok c' ∧ Stands mem received c' ∧
      (remainBuffer ≤ c.queryRemainLen ∧ c' = c ∨ c.queryRemainLen < remainBuffer ∧
        c'.querybuf.length = (beforeNul c.querybuf).length + queryInitLen) := by
  obtain ⟨c', hc', holds, fits⟩ :=
    enlarge_of_reach (r := ⟨c, received, .enlarge⟩) h.holds h.fits reach
  by_cases full : c.queryRemainLen < remainBuffer
  · have room := room_of_enlarge h.holds (reach full) full hc'
    have length : c'.querybuf.length = (beforeNul c.querybuf).length + queryInitLen := by
      obtain ⟨left, -, last⟩ := holds
      rw [Reader.Fits, last] at fits
      have room : c'.queryRemainLen =
        (beforeNul c.querybuf).length + queryInitLen - received.length := room
      have last : c'.queryEndIndex = received.length := last
      omega
    refine ⟨c', hc', ⟨holds, fits, fun i hi inside => ?_⟩, .inr ⟨full, length⟩⟩
    obtain ⟨size, grown⟩ : ∃ size, c'.querybuf = realloc mem c.querybuf size := by
      rw [tryToEnlargeBuffer, if_pos full] at hc'
      split at hc'
      case h_1 => cases hc'
      case h_2 =>
        dsimp only at hc'
        split at hc'
        case isTrue => cases hc'
        case isFalse =>
          cases hc'
          exact ⟨_, rfl⟩
    rw [grown, realloc_length] at inside
    rw [grown, realloc]
    by_cases old : i < c.querybuf.length
    · have taken : i < (c.querybuf.take size).length := by
        rw [List.length_take]
        omega
      rw [List.getElem?_append_left taken, List.getElem?_take, if_pos inside]
      exact h.behind i hi old
    · have whole : c.querybuf.take size = c.querybuf := List.take_of_length_le (by omega)
      rw [whole, List.getElem?_append_right (by omega), List.getElem?_map,
        List.getElem?_range (by omega)]
      simp only [Option.map_some]
      congr 2
      omega
  · obtain rfl := Except.ok.inj (hc'.symm.trans (enlarge_of_room full))
    exact ⟨c', hc', h, .inl ⟨by omega, rfl⟩⟩

theorem Stands.recv (h : Stands mem received c) (hd : Reader.delivers c data) :
    ∃ c', recvData data c = .ok c' ∧ Stands mem (received ++ data) c' ∧
      c'.querybuf.length = c.querybuf.length := by
  obtain ⟨c', hc', holds, fits⟩ := recvData_of_holds h.holds h.fits hd
  obtain ⟨left, content, last⟩ := h.holds
  have buf : c'.querybuf = received ++ data ++ left.drop data.length := by
    unfold recvData at hc'
    split at hc'
    case isTrue =>
      cases hc'
      simp [content, last, List.drop_append]
    case isFalse => cases hc'
  have length : c'.querybuf.length = c.querybuf.length := by
    have room := h.room
    have inside := hd.2
    rw [content, List.length_append] at room
    rw [buf, content]
    simp only [List.length_append, List.length_drop]
    omega
  refine ⟨c', hc', ⟨holds, fits, fun i hi inside => ?_⟩, length⟩
  have before := h.behind i (by rw [List.length_append] at hi; omega) (length ▸ inside)
  rw [List.length_append] at hi
  rw [content, List.getElem?_append_right (by omega)] at before
  rw [buf, List.append_assoc, List.getElem?_append_right (by omega),
    List.getElem?_append_right (by omega), List.getElem?_drop]
  rw [← before]
  congr 1
  omega

theorem Stands.grow (h : Stands mem received c)
    (takes : Takes mem (received ++ pending) c.querybuf.length)
    (room : pending ≠ [] → 0 ∉ received → remainBuffer ≤ c.queryRemainLen) :
    ∃ c', tryToEnlargeBuffer mem c = .ok c' ∧ Stands mem received c' ∧
      Takes mem (received ++ pending) c'.querybuf.length ∧
      (pending = [] → 0 ∉ received → remainBuffer ≤ c'.queryRemainLen) ∧
      (pending ≠ [] → 0 < c'.queryRemainLen) := by
  -- where the buffer is enlarged its string is that of all that is sent by then
  have behind (full : c.queryRemainLen < remainBuffer) (nul : 0 ∉ received) :
      pending = [] ∧ received.length < c.querybuf.length ∧ mem received.length = 0 := by
    obtain rfl : pending = [] := by
      by_contra more
      exact absurd (room more nul) (by omega)
    have little := h.room
    have ended := takes.ended
    have inside := takes.inside
    rw [List.append_nil] at ended inside
    rw [beforeNul_of_not_mem nul] at inside
    refine ⟨rfl, inside, (ended nul).resolve_right fun long => ?_⟩
    simp only [remainBuffer] at full
    omega
  have same (full : c.queryRemainLen < remainBuffer) :
      beforeNul received = beforeNul (received ++ pending) := by
    by_cases nul : 0 ∈ received
    · exact (beforeNul_append_of_mem nul _).symm
    · rw [(behind full nul).1, List.append_nil]
  have string (full : c.queryRemainLen < remainBuffer) :
      beforeNul c.querybuf = beforeNul (received ++ pending) := by
    obtain ⟨tail, content⟩ := h.string fun nul => (behind full nul).2
    rw [content, beforeNul_nul (not_mem_beforeNul _), same full]
  obtain ⟨c', hc', stands, same_or⟩ := h.enlarge fun full => by
    refine ⟨fun nul => ?_, fun nul => ?_, ?_⟩
    · have kept := takes.kept
      rw [← same full, List.length_append] at kept
      exact Nat.le_of_add_right_le kept
    · obtain ⟨tail, content⟩ := h.string fun nul => (behind full nul).2
      rw [beforeNul_of_not_mem nul] at content
      change 0 ∈ c.querybuf.drop received.length
      simp [content]
    · change (beforeNul c.querybuf).length + queryInitLen < 2 ^ 31
      rw [string full]
      exact takes.small
  refine ⟨c', hc', stands, ?_⟩
  have left := stands.room
  rcases same_or with ⟨enough, rfl⟩ | ⟨full, length⟩
  · refine ⟨takes, fun _ _ => enough, fun _ => ?_⟩
    simp only [remainBuffer] at enough
    omega
  · rw [string full] at length
    refine ⟨⟨fun nul => .inl ?_, ?_, takes.kept, takes.small⟩, ?_, ?_⟩
    · obtain ⟨clean, -⟩ := not_or.mp (mt List.mem_append.mpr nul)
      obtain ⟨rfl, -, ended⟩ := behind full clean
      rwa [List.append_nil]
    · simp only [queryInitLen] at length
      omega
    · rintro rfl nul
      rw [List.append_nil, beforeNul_of_not_mem nul] at length
      simp only [queryInitLen, remainBuffer] at length ⊢
      omega
    · intro more
      have pos := List.length_pos_iff.mpr more
      have kept := takes.kept
      rw [← length, List.length_append] at kept
      omega

/-- All of the segment is received, in whatever pieces. -/
theorem Stands.recvLoop {n : Nat} (h : Stands mem received c)
    (takes : Takes mem (received ++ pending) c.querybuf.length)
    (room : pending ≠ [] → 0 ∉ received → remainBuffer ≤ c.queryRemainLen)
    (hn : pending.length < n) :
    ∃ c', recvLoop mem n pending c = .ok (some c') ∧ Stands mem (received ++ pending) c' ∧
      Unmoved c c' ∧ Takes mem (received ++ pending) c'.querybuf.length ∧
      (0 ∉ received ++ pending → remainBuffer ≤ c'.queryRemainLen) := by
  induction n generalizing received pending c with
  | zero => cases hn
  | succ n ih =>
    obtain ⟨c₁, he, stands, takes₁, last, asks⟩ := h.grow takes room
    by_cases empty : pending = []
    · subst empty
      rw [List.append_nil] at takes₁ ⊢
      refine ⟨c₁, ?_, stands, enlarge_unmoved he, takes₁, last rfl⟩
      simp only [Epoll.recvLoop, recvRound, he, ok_bind]
      rfl
    · have some := asks empty
      have asked_eq : asked c₁ pending = c₁.queryRemainLen.toNat := if_neg (by omega)
      have pos := List.length_pos_iff.mpr empty
      have taken : pending.take (asked c₁ pending) ≠ [] := by
        rw [← List.length_pos_iff, List.length_take]
        omega
      obtain ⟨c₂, hr, stands₂, length⟩ := stands.recv (delivers_take taken)
      have text : received ++ pending.take (asked c₁ pending) ++
          pending.drop (asked c₁ pending) = received ++ pending := by
        rw [List.append_assoc, List.take_append_drop]
      have takes₂ : Takes mem (received ++ pending.take (asked c₁ pending) ++
          pending.drop (asked c₁ pending)) c₂.querybuf.length := by
        rw [text, length]
        exact takes₁
      obtain ⟨c', hl, stands', unmoved, takes', room'⟩ := ih stands₂ takes₂ (by
        -- where something is left the buffer is full, and so there has been a NUL
        intro more nul
        have inside := takes₂.inside
        have full := stands.room
        have left := List.length_pos_iff.mpr more
        rw [beforeNul_append_of_not_mem nul] at inside
        simp only [List.length_append, List.length_take, List.length_drop] at inside left
        omega) (by
        rw [List.length_drop]
        omega)
      rw [text] at stands' takes' room'
      refine ⟨c', ?_, stands', ((enlarge_unmoved he).trans (recvData_unmoved hr)).trans unmoved,
        takes', room'⟩
      simp only [Epoll.recvLoop, recvRound, he, ok_bind]
      rw [if_neg empty, if_neg taken, hr]
      exact hl

end stands

end Leano.Epoll
