import Leano.Epoll.FieldBytes
import Leano.Epoll.Server

namespace Leano.Epoll

open Leano.Lib Reader

def Reading.InReach (d : Reading) (r : Reader) : Prop :=
  EveryStep Reader.step (fun r a _ => EnlargesInReach r a) r d.acts

structure Unparsed (raw : Fields) (r : Reader) : Prop where
  sound : r.Sound
  control : r.conn.toControl = ⟨.read, some .readRequest, none⟩
  index : r.conn.queryStartIndex = 0
  fields : r.conn.toFields = raw

section reading

variable {raw : Fields} {r r' : Reader} {a : ReadAct} {as : List ReadAct}

theorem unparsed_start (raw : Fields) (mem : Nat → UInt8) :
    Unparsed raw (Session.accepted raw mem).reader where
  sound := start_sound raw (by simp)
  control := rfl
  index := rfl
  fields := rfl

theorem Unparsed.step (h : Unparsed raw r) (ok : EnlargesInReach r a) (hs : Reader.Step r a r')
    (reads : a ≠ .wouldBlock) : Unparsed raw r' ∧ r'.received = r.received ++ a.data := by
  have sound := h.sound.step ok hs
  cases hs with
  | event => exact ⟨⟨sound, h.control, h.index, h.fields⟩, (List.append_nil _).symm⟩
  | enlarge _ hc =>
    have same := enlarge_unmoved hc
    exact ⟨⟨sound, same.control.trans h.control, same.index.trans h.index,
      same.fields.trans h.fields⟩, (List.append_nil _).symm⟩
  | recv _ _ hc =>
    have same := recvData_unmoved hc
    exact ⟨⟨sound, same.control.trans h.control, same.index.trans h.index,
      same.fields.trans h.fields⟩, rfl⟩
  | enlargeFault => exact absurd rfl sound.sound
  | recvFault => exact absurd rfl sound.sound
  | wouldBlock => exact absurd rfl reads
  | crash => exact absurd rfl reads
  | eof => exact ⟨⟨sound, h.control, h.index, h.fields⟩, (List.append_nil _).symm⟩

theorem Unparsed.run (h : Unparsed raw r)
    (ok : EveryStep Reader.step (fun r a _ => EnlargesInReach r a) r as)
    (reads : .wouldBlock ∉ as) (hr : Lib.run Reader.step r as = some r') :
    Unparsed raw r' ∧ r'.received = r.received ++ as.flatMap ReadAct.data := by
  induction as generalizing r with
  | nil =>
    cases hr
    exact ⟨h, (List.append_nil _).symm⟩
  | cons a as ih =>
    obtain ⟨u, hs, hu⟩ := Option.bind_eq_some_iff.mp (run_cons ▸ hr)
    obtain ⟨now, later⟩ := (everyStep_cons hs).mp ok
    obtain ⟨first, rest⟩ := not_or.mp (List.mem_cons.not.mp reads)
    obtain ⟨unparsed, received⟩ := h.step now (step_cases hs) (Ne.symm first)
    obtain ⟨end_, all⟩ := ih unparsed later rest hu
    refine ⟨end_, ?_⟩
    rw [all, received, List.flatMap_cons, List.append_assoc]

def Reading.before (d : Reading) : List ReadAct :=
  .event :: (d.rounds.flatMap Reading.roundActs ++ [.enlarge d.fill])

theorem data_before (d : Reading) : d.before.flatMap ReadAct.data = d.data := by
  have rounds : (d.rounds.flatMap Reading.roundActs).flatMap ReadAct.data = d.data := by
    rw [Reading.data]
    induction d.rounds with
    | nil => rfl
    | cons round rounds ih =>
      rw [List.flatMap_cons, List.flatMap_append, ih]
      simp [Reading.roundActs, ReadAct.data]
  rw [Reading.before, List.flatMap_cons, List.flatMap_append, rounds]
  simp [ReadAct.data]

theorem reads_before (d : Reading) : .wouldBlock ∉ d.before := by
  simp [Reading.before, Reading.roundActs]

theorem acts_eq {d : Reading} (eof : d.eof = false) : d.acts = d.before ++ [.wouldBlock] := by
  simp [Reading.acts, Reading.before, eof]

theorem completes {d : Reading} {req : Request} {body : List UInt8} (h : Unparsed raw r)
    (empty : r.received = []) (eof : d.eof = false) (ok : d.InReach r)
    (text : d.data = req.text ++ body) (fits : req.Fits)
    (hr : Lib.run Reader.step r d.acts = some r') :
    r'.pc = .idle ∧ r'.conn.toControl = sent ∧ r'.conn.toFields = req.fields raw := by
  rw [acts_eq eof, run_concat] at hr
  obtain ⟨u, hu, hs⟩ := Option.bind_eq_some_iff.mp hr
  have early : EveryStep Reader.step (fun r a _ => EnlargesInReach r a) r d.before := by
    intro before a after p q eq
    refine ok before a (after ++ [.wouldBlock]) p q ?_
    rw [acts_eq eof, eq, List.append_assoc]
    rfl
  obtain ⟨unparsed, received⟩ := h.run early (reads_before d) hu
  rw [empty, data_before, List.nil_append, text] at received
  have parses (hp : u.pc = .recv) : processRequestLine u.conn =
      .ok (processBody { u.conn with toFields := req.fields raw }) := by
    have reading : u.reading := ⟨congrArg Control.readHandler unparsed.control, .inr (.inr hp)⟩
    obtain ⟨left, content, -⟩ := unparsed.sound.holds reading
    rw [received, List.append_assoc] at content
    have parsed := processRequestLine_fields content unparsed.index fits
    rwa [unparsed.fields] at parsed
  cases step_cases hs with
  | wouldBlock hp hc =>
    rw [parses hp] at hc
    cases hc
    exact ⟨rfl, rfl, rfl⟩
  | crash hp hc =>
    rw [parses hp] at hc
    cases hc

end reading

namespace Sender

variable {u v : Sender} {sends : List Sends}

theorem start_or_response (whole : ∀ r ∈ sends, r.Whole) (h : run step start sends = some u) :
    u = start ∨ u = ⟨response, true⟩ := by
  have delivered := (delivered_iff h).mpr whole sends u List.prefix_rfl h
  cases closed : u.closed with
  | true =>
    obtain ⟨all, -⟩ := delivered.2 closed
    refine .inr ?_
    rw [← all, ← closed]
  | false =>
    refine .inl ?_
    induction sends using List.reverseRecOn generalizing u with
    | nil =>
      cases h
      rfl
    | append_singleton sends r ih =>
      rw [run_concat] at h
      obtain ⟨w, hw, hs⟩ := Option.bind_eq_some_iff.mp h
      obtain ⟨opened, -, -, rfl⟩ := step_cases hs
      obtain ⟨before, -⟩ := List.forall_mem_append.mp whole
      have delivered' := (delivered_iff hw).mpr before sends w List.prefix_rfl hw
      obtain rfl := ih before hw delivered' opened
      obtain ⟨-, same⟩ | ⟨-, ended⟩ := sendResponse_cases start r
      · exact same
      · rw [ended] at closed
        cases closed

end Sender

namespace Session

variable {v : Session} {o : Option Session} {ds : List Deed}

theorem sends_of_run (complete : v.reader.conn.toControl = sent)
    (h : run step (some v) ds = some o) : ∃ sends w, ds = sends.map Deed.send ∧ o = some w ∧
      run Sender.step v.sender sends = some w.sender ∧ w.reader = v.reader := by
  induction ds generalizing v with
  | nil =>
    cases h
    exact ⟨[], v, rfl, rfl, rfl, rfl⟩
  | cons d ds ih =>
    obtain ⟨o', ho, h⟩ := Option.bind_eq_some_iff.mp (run_cons ▸ h)
    obtain ⟨u, hu, rfl⟩ := Option.map_eq_some_iff.mp ho
    cases next_cases hu with
    | @read _ d r hr _ =>
      obtain ⟨q, hq, -⟩ := Option.bind_eq_some_iff.mp (run_cons ▸ hr)
      cases step_cases hq with
      | event _ handler => cases (congrArg Control.readHandler complete).symm.trans handler
    | @send _ r sender _ hs =>
      obtain ⟨sends, w, rfl, ended, rest, same⟩ := ih (v := ⟨v.reader, sender⟩) complete h
      refine ⟨r :: sends, w, rfl, ended, ?_, same⟩
      rw [run_cons, hs]
      exact rest

end Session

section

variable {deed : Deed}

def Deed.isAccept : Deed → Bool
  | .accept _ _ => true
  | .read _ => false
  | .send _ => false

def Deed.isRead (data : List UInt8) : Deed → Bool
  | .accept _ _ => false
  | .read d => decide (d.eof = false ∧ d.data = data)
  | .send _ => false

def Deed.isSend (r : Sends) : Deed → Bool
  | .accept _ _ => false
  | .read _ => false
  | .send r' => decide (r' = r)

theorem eq_of_isAccept (h : deed.isAccept = true) : ∃ raw mem, deed = .accept raw mem := by
  cases deed with
  | accept raw mem => exact ⟨raw, mem, rfl⟩
  | read | send => cases h

theorem eq_of_isRead {data : List UInt8} (h : deed.isRead data = true) :
    ∃ d, deed = .read d ∧ d.eof = false ∧ d.data = data := by
  cases deed with
  | read d => exact ⟨d, rfl, of_decide_eq_true h⟩
  | accept | send => cases h

theorem eq_of_isSend {r : Sends} (h : deed.isSend r = true) : deed = .send r := by
  cases deed with
  | send r' => exact congrArg _ (of_decide_eq_true h)
  | accept | read => cases h

end

namespace Server

variable {listenfd id : Nat} {s t : Server} {raw : Fields} {mem : Nat → UInt8} {d : Reading}
  {r : Request} {body : List UInt8}

/-- A client whose request is read whole by one call, whatever follows it, is answered: as long as
no `send` takes only a part, it has got nothing and is registered for its response, or it has got
all of the response and is closed. -/
theorem answers {later : List Deed}
    (h : History step (own id) (init listenfd) (.accept raw mem :: .read d :: later) s)
    (eof : d.eof = false) (inReach : d.InReach (Session.accepted raw mem).reader)
    (text : d.data = r.text ++ body) (fits : r.Fits)
    (whole : ∀ sends, .send sends ∈ later → sends.Whole) :
    ∃ v, s.sessions id = some v ∧ v.reader.conn.toFields = r.fields raw ∧
      (v.sender = .start ∧ (∃ fd, s.loop.conns id = some ⟨sent, fd⟩ ∧
          s.loop.epoll fd = some (id, ⟨false, true⟩)) ∨
        v.sender = ⟨response, true⟩ ∧ s.loop.conns id = none ∧
          ∀ fd mask, s.loop.epoll fd ≠ some (id, mask)) := by
  have agrees := agrees_of_reach h.reach
  have moved := session_of_history h
  rw [run_cons] at moved
  obtain ⟨o, accepted, moved⟩ := Option.bind_eq_some_iff.mp moved
  cases accepted
  rw [run_cons] at moved
  obtain ⟨o, read, moved⟩ := Option.bind_eq_some_iff.mp moved
  obtain ⟨u, hu, rfl⟩ := Option.map_eq_some_iff.mp read
  cases Session.next_cases hu with
  | @read _ _ reader hr _ =>
    obtain ⟨idle, complete, fields⟩ :=
      completes (unparsed_start raw mem) rfl eof inReach text fits hr
    obtain ⟨sends, w, rfl, hw, taken, same⟩ := Session.sends_of_run complete moved
    have whole : ∀ r ∈ sends, r.Whole := by
      intro r hr
      exact whole r (List.mem_map_of_mem hr)
    refine ⟨w, hw, by rw [same]; exact fields, ?_⟩
    have control := agrees.control id (agrees.pos hw)
    rw [hw, Option.bind_some, Session.control, same] at control
    rcases Sender.start_or_response whole taken with fresh | done
    · refine .inl ⟨fresh, ?_⟩
      rw [fresh, if_neg (by simp [idle, Sender.start])] at control
      obtain ⟨c, hc, registered⟩ := Option.map_eq_some_iff.mp control
      obtain ⟨mask, he, shape⟩ := agrees.inv.live id c hc
      rw [complete] at registered
      cases shape with
      | sending fd => exact ⟨fd, hc, he⟩
      | listening | client => cases registered
    · refine .inr ⟨done, ?_⟩
      rw [done, if_pos (.inr rfl)] at control
      have gone := Option.map_eq_none_iff.mp control
      refine ⟨gone, fun fd mask registered => ?_⟩
      obtain ⟨c, hc, -⟩ := agrees.inv.registered fd id mask registered
      rw [gone] at hc
      cases hc

end Server

section short

variable {raw : Fields} {mem fill : Nat → UInt8} {r : Reader} {as : List ReadAct} {d : Reading}
  {data : List UInt8}

theorem everyStep_short (room : r.conn.queryRemainLen + r.received.length = queryInitLen)
    (short : r.received.length + (as.flatMap ReadAct.data).length ≤ 512)
    (reads : .wouldBlock ∉ as) :
    EveryStep Reader.step (fun r a _ => EnlargesInReach r a) r as := by
  induction as generalizing r with
  | nil =>
    intro before a after u t eq
    cases before <;> cases eq
  | cons a as ih =>
    obtain ⟨first, rest⟩ := not_or.mp (List.mem_cons.not.mp reads)
    rw [List.flatMap_cons, List.length_append] at short
    have free : ¬ r.conn.queryRemainLen < remainBuffer := by
      simp only [queryInitLen, remainBuffer] at room ⊢
      omega
    cases hs : Reader.step r a with
    | none => exact everyStep_of_stuck hs
    | some u =>
      refine (everyStep_cons hs).mpr ⟨?_, ?_⟩
      · cases a with
        | enlarge fill => exact fun full => absurd full free
        | event | recv | wouldBlock | eof => trivial
      · have kept (conn : u.conn = r.conn) (received : u.received = r.received) :
            EveryStep Reader.step (fun r a _ => EnlargesInReach r a) u as :=
          ih (conn ▸ received ▸ room) (by rw [received]; omega) rest
        cases step_cases hs with
        | enlarge _ hc =>
          rw [enlarge_of_room free] at hc
          cases hc
          exact kept rfl rfl
        | @recv data c _ _ hc =>
          have less : c.queryRemainLen = r.conn.queryRemainLen - data.length := by
            unfold recvData at hc
            split at hc <;> cases hc
            rfl
          have received : (r.received ++ data).length = r.received.length + data.length :=
            List.length_append
          refine ih ?_ ?_ rest
          · rw [less, received]
            omega
          · rw [received]
            exact (Nat.add_assoc _ _ _).trans_le short
        | wouldBlock => exact absurd rfl first
        | crash => exact absurd rfl first
        | event => exact kept rfl rfl
        | enlargeFault => exact kept rfl rfl
        | recvFault => exact kept rfl rfl
        | eof => exact kept rfl rfl

theorem inReach_short (eof : d.eof = false) (short : d.data.length ≤ 512) :
    d.InReach (Session.accepted raw mem).reader := by
  rw [Reading.InReach, acts_eq eof]
  refine everyStep_concat (everyStep_short rfl ?_ (reads_before d)) fun _ _ _ _ => trivial
  rw [data_before]
  exact (Nat.zero_add _).trans_le short

def Reading.whole (fill : Nat → UInt8) (data : List UInt8) : Reading :=
  ⟨[(fill, data)], fill, false⟩

theorem data_whole : (Reading.whole fill data).data = data := by
  simp [Reading.whole, Reading.data]

theorem step_enlarge_of_room (hp : r.pc = .enlarge)
    (free : ¬ r.conn.queryRemainLen < remainBuffer) :
    Reader.step r (.enlarge fill) = some { r with pc := .recv } := by
  simp only [Reader.step, hp, if_true, enlarge_of_room free]

theorem exists_whole {c : WebConnection} (fill : Nat → UInt8) (sound : Sound ⟨c, [], .idle⟩)
    (handler : c.readHandler = some .readRequest) (room : c.queryRemainLen = queryInitLen)
    (nonempty : data ≠ []) (short : data.length ≤ 512) :
    ∃ u : Reader, u.pc = .recv ∧
      run Reader.step ⟨c, [], .idle⟩ (Reading.whole fill data).before = some u := by
  have reading : Reader.reading ⟨c, [], .idle⟩ := ⟨handler, .inl rfl⟩
  have delivers : delivers c data := by
    refine ⟨nonempty, fun _ => ?_⟩
    rw [room, queryInitLen]
    omega
  obtain ⟨c', hc, -⟩ := recvData_of_holds (sound.holds reading) (sound.fits reading) delivers
  have first : ¬ c.queryRemainLen < remainBuffer := by
    rw [room]
    decide
  have second : ¬ c'.queryRemainLen < remainBuffer := by
    unfold recvData at hc
    split at hc <;> cases hc
    simp only [room, queryInitLen, remainBuffer]
    omega
  have event : Reader.step ⟨c, [], .idle⟩ .event = some ⟨c, [], .enlarge⟩ := by
    simp only [Reader.step, handler, and_self, if_true]
  have recv : Reader.step ⟨c, [], .recv⟩ (.recv data) = some ⟨c', data, .enlarge⟩ := by
    simp only [Reader.step, delivers, and_self, if_true, hc, List.nil_append]
  refine ⟨⟨c', data, .recv⟩, rfl, ?_⟩
  have acts : (Reading.whole fill data).before =
      [.event, .enlarge fill, .recv data, .enlarge fill] := rfl
  rw [acts, run_cons, event, Option.bind_some, run_cons, step_enlarge_of_room rfl first,
    Option.bind_some, run_cons, recv, Option.bind_some, run_cons, step_enlarge_of_room rfl second]
  rfl

theorem exists_complete {req : Request} {body : List UInt8} (raw : Fields)
    (mem fill : Nat → UInt8) (fits : req.Fits) (short : (req.text ++ body).length ≤ 512) :
    ∃ u : Reader, run Reader.step (Session.accepted raw mem).reader
        (Reading.whole fill (req.text ++ body)).acts = some u ∧
      u.pc = .idle ∧ u.conn.toControl = sent ∧ u.conn.toFields = req.fields raw := by
  have nonempty : req.text ++ body ≠ [] := by simp [Request.text]
  let d := Reading.whole fill (req.text ++ body)
  obtain ⟨u, hp, hu⟩ := exists_whole fill (unparsed_start raw mem).sound rfl rfl nonempty short
  have hu : run Reader.step (Session.accepted raw mem).reader d.before = some u := hu
  have inReach : d.InReach (Session.accepted raw mem).reader :=
    inReach_short rfl (data_whole ▸ short)
  obtain ⟨r, hs⟩ : ∃ r, Reader.step u .wouldBlock = some r := by
    simp only [Reader.step, hp, if_true]
    split <;> exact ⟨_, rfl⟩
  have hr : run Reader.step (Session.accepted raw mem).reader d.acts = some r := by
    rw [acts_eq rfl, run_concat, hu]
    exact hs
  exact ⟨r, hr, completes (unparsed_start raw mem) rfl rfl inReach data_whole fits hr⟩

end short

namespace Loop

variable {s : Loop} {id : Nat} {c : Conn} {mask : Mask} {ev : Events} {h : Handler}

theorem exists_call (inv : s.Inv) (idle : s.batch = []) (hc : s.conns id = some c)
    (he : s.epoll c.fd = some (id, mask)) (within : ev.within mask = true)
    (chosen : (if ev.epollin then c.readHandler else if ev.epollout then c.writeHandler else none) =
      some h) :
    ∃ l log, s.step (.wait [⟨c.fd, id, ev⟩]) = some l ∧ l.called = some (id, h) ∧
      l.next = s.next ∧
      ∀ outcome, l.step (.dispatch outcome) = { s with log := log }.handle id c h outcome := by
  have reports : s.reports ⟨c.fd, id, ev⟩ = true := by simp [Loop.reports, he, within]
  let log := s.log ++ [.touch id] ++ [.call id (some h)]
  refine ⟨{ s with batch := [⟨c.fd, id, ev⟩] }, log, ?_, ?_, rfl, fun outcome => ?_⟩
  · simp [Loop.step, inv.defined, idle, reports]
  · simp [called, hc, chosen]
  · have entered : (({ s with batch := [] } : Loop).note (.touch id)).note (.call id (some h)) =
        { s with log := log } := by rw [← idle]; rfl
    have called : (({ s with batch := [] } : Loop).note (.touch id)).call id c (some h) outcome =
        { s with log := log }.handle id c h outcome := by rw [← entered]; rfl
    simp only [Loop.step, dispatch, hc]
    rw [if_neg (by simp [inv.defined])]
    split at chosen
    case isTrue readable =>
      rw [if_pos readable, chosen]
      exact called
    case isFalse silent =>
      split at chosen
      case isTrue writable =>
        rw [if_neg silent, if_pos writable, chosen]
        exact called
      case isFalse => cases chosen

theorem webAccept_eq {fd : Nat} (log : List Entry) (free : s.epoll fd = none) :
    { s with log := log }.webAccept fd =
      { s with
        conns := Function.update s.conns s.next (some (client fd))
        opened := Function.update s.opened fd true
        next := s.next + 1
        epoll := Function.update s.epoll fd (some (s.next, ⟨true, false⟩))
        log := log } := by
  simp [webAccept, epollAddEvent, client, free]

theorem complete_eq {e : Nat × Mask} (log : List Entry) (he : s.epoll c.fd = some e) :
    { s with log := log }.complete id c =
      { s with
        conns := Function.update s.conns id (some { c with toControl := sent })
        epoll := Function.update s.epoll c.fd (some (id, ⟨false, true⟩))
        log := log } := by
  simp [complete, epollModEvent, he]

end Loop

namespace Server

variable {listenfd : Nat} {s : Server}

theorem run_call {l : Loop} {call : Call} {id id' fd : Nat} {ev : Events} {d : Deed} {v : Session}
    {l' : Loop} (hl : s.loop.step (.wait [⟨fd, id, ev⟩]) = some l)
    (deed : Server.deed { s with loop := l } call = some (id', d))
    (hv : Session.next (s.sessions id') d = some v)
    (hl' : l.step (.dispatch (call.outcome v)) = some l') :
    run step s [.wait [⟨fd, id, ev⟩], .dispatch call] =
      some ⟨l', Function.update s.sessions id' (some v)⟩ := by
  have first : step s (.wait [⟨fd, id, ev⟩]) = some { s with loop := l } := by
    simp only [step, onLoop, hl, Option.map_some]
  have second : step { s with loop := l } (.dispatch call) =
      some ⟨l', Function.update s.sessions id' (some v)⟩ := by
    simp only [step, deed, onSession, hv, Option.bind_some, hl', Option.map_some]
  rw [run_cons, first, Option.bind_some, run_cons, second]
  rfl

theorem exists_accept {connfd : Nat} (raw : Fields) (mem : Nat → UInt8)
    (h : Agrees listenfd s) (idle : s.loop.batch = []) (free : s.loop.opened connfd = false) :
    ∃ acts t, run step s acts = some t ∧
      t.sessions = Function.update s.sessions s.loop.next (some (.accepted raw mem)) ∧
      t.loop.conns = Function.update s.loop.conns s.loop.next (some (Loop.client connfd)) ∧
      t.loop.opened = Function.update s.loop.opened connfd true ∧
      t.loop.epoll = Function.update s.loop.epoll connfd (some (s.loop.next, ⟨true, false⟩)) ∧
      t.loop.batch = [] := by
  obtain ⟨mask, he, shape⟩ := h.inv.live 0 _ h.listening
  cases shape with
  | listening =>
    have within : (⟨true, false, false, false⟩ : Events).within ⟨true, false⟩ = true := rfl
    obtain ⟨l, log, hl, called, next, disp⟩ :=
      Loop.exists_call h.inv idle h.listening he within rfl
    have new : s.sessions s.loop.next = none := by
      refine Option.not_isSome_iff_eq_none.mp fun some => ?_
      exact absurd ((h.known _).mp some).2 (lt_irrefl _)
    have deed : Server.deed { s with loop := l } (.accept connfd raw mem) =
        some (s.loop.next, .accept raw mem) := by simp [Server.deed, called, next]
    have accepted : Session.next (s.sessions s.loop.next) (.accept raw mem) =
        some (.accepted raw mem) := by
      rw [new]
      rfl
    have ended : l.step (.dispatch (.accepted connfd)) =
        some ({ s.loop with log := log }.webAccept connfd) := by
      rw [disp]
      simp [Loop.handle, free]
    rw [Loop.webAccept_eq _ (h.inv.opened connfd free)] at ended
    exact ⟨_, _, run_call hl deed accepted ended, rfl, rfl, rfl, rfl, idle⟩

variable {id : Nat} {c : Conn} {v : Session}

theorem exists_read {u : Reader} {d : Reading} (h : Agrees listenfd s) (idle : s.loop.batch = [])
    (hv : s.sessions id = some v) (hc : s.loop.conns id = some c)
    (reads : c.readHandler = some .readRequest) (hu : run Reader.step v.reader d.acts = some u)
    (returned : u.pc = .idle) (complete : u.conn.toControl = sent) :
    ∃ acts t, run step s acts = some t ∧
      t.sessions = Function.update s.sessions id (some { v with reader := u }) ∧
      t.loop.conns = Function.update s.loop.conns id (some { c with toControl := sent }) ∧
      t.loop.opened = s.loop.opened ∧
      t.loop.epoll = Function.update s.loop.epoll c.fd (some (id, ⟨false, true⟩)) ∧
      t.loop.batch = [] := by
  obtain ⟨mask, he, shape⟩ := h.inv.live id c hc
  obtain ⟨-, unsent, -⟩ := Session.control_eq_some (h.control_of_called hc hv)
  have within : Events.within ⟨true, false, false, false⟩ mask = true := by
    cases shape with
    | client | listening => rfl
    | sending => cases reads
  obtain ⟨l, log, hl, called, next, disp⟩ := Loop.exists_call h.inv idle hc he within
    ((if_pos rfl).trans reads)
  have deed : Server.deed { s with loop := l } (.read d) = some (id, .read d) := by
    simp [Server.deed, called]
  have read : Session.next (s.sessions id) (.read d) = some { v with reader := u } := by
    rw [hv]
    simp [Session.next, hu, returned]
  have ended : l.step (.dispatch (Session.readOutcome { v with reader := u })) =
      some ({ s.loop with log := log }.complete id c) := by
    have live : ({ v with reader := u } : Session).control = some sent := by
      simp [Session.control, returned, unsent, complete]
    rw [disp, Session.readOutcome, live]
    rfl
  rw [Loop.complete_eq _ he] at ended
  exact ⟨_, _, run_call hl deed read ended, rfl, rfl, rfl, rfl, idle⟩

theorem exists_sent (h : Agrees listenfd s) (idle : s.loop.batch = [])
    (hv : s.sessions id = some v) (hc : s.loop.conns id = some c) (complete : c.toControl = sent)
    (fresh : v.sender = .start) :
    ∃ acts t, run step s acts = some t ∧
      t.sessions = Function.update s.sessions id (some { v with sender := ⟨response, true⟩ }) ∧
      t.loop.conns = Function.update s.loop.conns id none ∧
      t.loop.opened = Function.update s.loop.opened c.fd false ∧
      t.loop.epoll = Function.update s.loop.epoll c.fd none ∧ t.loop.batch = [] := by
  obtain ⟨mask, he, shape⟩ := h.inv.live id c hc
  obtain ⟨-, -, control⟩ := Session.control_eq_some (h.control_of_called hc hv)
  have within : Events.within ⟨false, true, false, false⟩ mask = true := by
    cases shape with
    | sending => rfl
    | client | listening => cases complete
  have chosen : (if (false : Bool) then c.readHandler
      else if (true : Bool) then c.writeHandler else none) = some .sendResponse := by
    rw [complete]
    rfl
  obtain ⟨l, log, hl, called, next, disp⟩ := Loop.exists_call h.inv idle hc he within chosen
  let all : Sends := ⟨.bytes httpHeader.length, .bytes epollHello.length⟩
  have deed : Server.deed { s with loop := l } (.send all) = some (id, .send all) := by
    simp [Server.deed, called]
  have taken : Sender.step .start all = some ⟨response, true⟩ := by decide +kernel
  have sends : Session.next (s.sessions id) (.send all) =
      some { v with sender := ⟨response, true⟩ } := by
    have handler : v.reader.conn.writeHandler = some .sendResponse := by
      rw [control, complete]
      rfl
    rw [hv]
    simp [Session.next, handler, fresh, taken]
  have ended : l.step (.dispatch (Session.sendOutcome { v with sender := ⟨response, true⟩ })) =
      some ((Loop.epollDelEvent { s.loop with log := log } c).closeConn id c) := by
    rw [disp]
    rfl
  refine ⟨_, _, run_call hl deed sends ended, rfl, rfl, rfl, ?_, idle⟩
  exact Function.update_idem _ _ _

/-- Whatever the clients before it have done, the loop can serve a new one whose request fits, and
comes back to where it was. -/
theorem serves {connfd : Nat} {req : Request} {body : List UInt8}
    (h : Reach step (init listenfd) s) (idle : s.loop.batch = [])
    (free : s.loop.opened connfd = false) (fits : req.Fits)
    (short : (req.text ++ body).length ≤ 512) (raw : Fields) (mem : Nat → UInt8) :
    ∃ acts t v, run step s acts = some t ∧
      t.sessions = Function.update s.sessions s.loop.next (some v) ∧
      v.sender = ⟨response, true⟩ ∧ v.reader.conn.toFields = req.fields raw ∧
      t.loop.conns = s.loop.conns ∧ t.loop.opened = s.loop.opened ∧
      t.loop.epoll = s.loop.epoll ∧ t.loop.batch = [] := by
  have agrees := agrees_of_reach h
  have unused := agrees.inv.opened connfd free
  have fresh := agrees.inv.fresh s.loop.next le_rfl
  obtain ⟨first, s₁, h₁, sessions₁, conns₁, opened₁, epoll₁, idle₁⟩ :=
    exists_accept raw mem agrees idle free
  have reach₁ := h.trans (reach_of_run h₁)
  obtain ⟨u, hu, returned, complete, fields⟩ := exists_complete raw mem mem fits short
  obtain ⟨second, s₂, h₂, sessions₂, conns₂, opened₂, epoll₂, idle₂⟩ :=
    exists_read (agrees_of_reach reach₁) idle₁ (sessions₁ ▸ Function.update_self _ _ _)
      (conns₁ ▸ Function.update_self _ _ _) rfl hu returned complete
  have reach₂ := reach₁.trans (reach_of_run h₂)
  obtain ⟨third, s₃, h₃, sessions₃, conns₃, opened₃, epoll₃, idle₃⟩ :=
    exists_sent (agrees_of_reach reach₂) idle₂ (sessions₂ ▸ Function.update_self _ _ _)
      (conns₂ ▸ Function.update_self _ _ _) rfl rfl
  refine ⟨first ++ second ++ third, s₃, ⟨u, ⟨response, true⟩⟩, ?_, ?_, rfl, fields, ?_, ?_, ?_,
    idle₃⟩
  · rw [run_append, run_append, h₁, Option.bind_some, h₂]
    exact h₃
  · rw [sessions₃, sessions₂, sessions₁, Function.update_idem, Function.update_idem]
  · rw [conns₃, conns₂, conns₁, Function.update_idem, Function.update_idem, ← fresh,
      Function.update_eq_self]
  · rw [opened₃, opened₂, opened₁, Loop.client, Function.update_idem, ← free,
      Function.update_eq_self]
  · rw [epoll₃, epoll₂, epoll₁, Loop.client, Function.update_idem, Function.update_idem, ← unused,
      Function.update_eq_self]

theorem fits_get : Parse.getRequest.Fits := ⟨by decide, by decide, by decide, by decide⟩

theorem serves_of_get : ∃ acts t v, run step (init 3) acts = some t ∧
    t.sessions 1 = some v ∧ v.sender = ⟨response, true⟩ := by
  have free : (init 3).loop.opened 4 = false := rfl
  have short : (Parse.getRequest.text ++ []).length ≤ 512 := by decide
  obtain ⟨acts, t, v, hr, sessions, done, -⟩ :=
    serves .start rfl free fits_get short .zero fun _ => 0
  exact ⟨acts, t, v, hr, by rw [sessions]; exact Function.update_self _ _ _, done⟩

def getCalls : List ServerAct :=
  [readable 3 0, arrival 4, readable 4 1,
    .dispatch (.read (.whole (fun _ => 0) Parse.getRequest.text)),
    .wait [⟨4, 1, ⟨false, true, false, false⟩⟩],
    .dispatch (.send ⟨.error .eagain, .error .eagain⟩),
    .wait [⟨4, 1, ⟨false, true, false, false⟩⟩],
    .dispatch (.send ⟨.bytes httpHeader.length, .bytes epollHello.length⟩)]

theorem answers_of_get : ∃ s v, Reach step (init 3) s ∧ s.sessions 1 = some v ∧
    (v.sender = .start ∨ v.sender = ⟨response, true⟩) := by
  let refused : Sends := ⟨.error .eagain, .error .eagain⟩
  let all : Sends := ⟨.bytes httpHeader.length, .bytes epollHello.length⟩
  obtain ⟨ds, s, h, hp⟩ := exists_history step (own 1) (init 3) getCalls
    (fun ds _ => decide (List.Forall₂ (fun (p : Deed → Bool) (d : Deed) => p d = true)
      [Deed.isAccept, Deed.isRead Parse.getRequest.text, Deed.isSend refused, Deed.isSend all] ds))
    (by decide +kernel)
  have done := of_decide_eq_true hp
  simp only [List.forall₂_cons_left_iff, List.forall₂_nil_left_iff] at done
  obtain ⟨_, _, accept, ⟨_, _, read, sent, rfl⟩, rfl⟩ := done
  obtain ⟨_, _, first, ⟨_, _, second, rfl, rfl⟩, rfl⟩ := sent
  obtain ⟨raw, mem, rfl⟩ := eq_of_isAccept accept
  obtain ⟨d, rfl, eof, data⟩ := eq_of_isRead read
  rw [eq_of_isSend first, eq_of_isSend second] at h
  have text : d.data = Parse.getRequest.text ++ [] := data.trans (List.append_nil _).symm
  have short : d.data.length ≤ 512 := by
    rw [data]
    decide
  obtain ⟨v, hv, -, answered⟩ := answers h eof (inReach_short eof short) text fits_get (by
    intro sends mem
    rcases List.mem_pair.mp mem with same | same <;> cases same
    · exact .inl ⟨_, rfl⟩
    · exact .inr ⟨rfl, rfl⟩)
  exact ⟨s, v, h.reach, hv, answered.imp And.left And.left⟩

end Server

end Leano.Epoll
