import Leano.Epoll.Broken
import Leano.Lib.History

namespace Leano.Epoll

open Leano.Lib

/-- A call of `read_request`: the rounds of its loop that take data, each with what an enlargement
finds, and the last one. -/
structure Reading where
  rounds : List ((Nat → UInt8) × List UInt8)
  fill : Nat → UInt8
  eof : Bool

namespace Reading

def roundActs (round : (Nat → UInt8) × List UInt8) : List ReadAct :=
  [.enlarge round.1, .recv round.2]

def acts (d : Reading) : List ReadAct :=
  .event :: (d.rounds.flatMap roundActs ++ [.enlarge d.fill, if d.eof then .eof else .wouldBlock])

def data (d : Reading) : List UInt8 := (d.rounds.map Prod.snd).flatten

end Reading

inductive Deed where
  | accept (raw : Fields) (mem : Nat → UInt8)
  | read (d : Reading)
  | send (r : Sends)

/-- A client's connection with what was read from its socket, and what its socket has taken. -/
structure Session where
  reader : Reader
  sender : Sender

namespace Session

def accepted (raw : Fields) (mem : Nat → UInt8) : Session :=
  ⟨.start raw ((List.range queryInitLen).map mem), .start⟩

def control (v : Session) : Option Control :=
  if v.reader.pc = .closed ∨ v.sender.closed = true then none else some v.reader.conn.toControl

/-- A call with undefined behaviour has no successor. -/
def next : Option Session → Deed → Option Session
  | none, .accept raw mem => some (accepted raw mem)
  | some v, .read d =>
    (run Reader.step v.reader d.acts).bind fun r =>
      if r.pc = .idle ∨ r.pc = .closed then some { v with reader := r } else none
  | some v, .send r =>
    if v.reader.conn.writeHandler = some .sendResponse then
      (v.sender.step r).map fun sender => { v with sender := sender }
    else none
  | _, _ => none

def step (v : Option Session) (d : Deed) : Option (Option Session) := (next v d).map some

def readOutcome (v : Session) : Outcome :=
  match v.control with
  | none => .closed
  | some c => if c.state = .sendData then .complete else .incomplete

def sendOutcome (v : Session) : Outcome := if v.sender.closed = true then .sent else .sendFailed

end Session

inductive Call where
  | acceptFailed
  | accept (connfd : Nat) (raw : Fields) (mem : Nat → UInt8)
  | read (d : Reading)
  | send (r : Sends)
  | nothing

def Call.outcome : Call → Session → Outcome
  | .acceptFailed, _ => .acceptFailed
  | .accept connfd _ _, _ => .accepted connfd
  | .read _, v => v.readOutcome
  | .send _, v => v.sendOutcome
  | .nothing, _ => .nothing

inductive ServerAct where
  | wait (reports : List Report)
  | dispatch (call : Call)

def LoopAct.quiet : LoopAct → Bool
  | .wait _ => true
  | .dispatch .acceptFailed => true
  | .dispatch .nothing => true
  | .dispatch _ => false

namespace Loop

variable {s t : Loop} {id : Nat} {h : Handler} {outcome : Outcome}

theorem call_of_quiet {c : Conn} {handler : Option Handler}
    (quiet : LoopAct.quiet (.dispatch outcome) = true)
    (hs : s.call id c handler outcome = some t) :
    t.conns = s.conns ∧ t.next = s.next ∧ t.epoll = s.epoll := by
  cases handler with
  | none =>
    cases hs
    exact ⟨rfl, rfl, rfl⟩
  | some h =>
    cases outcome <;> cases quiet <;> cases h <;> cases hs <;> exact ⟨rfl, rfl, rfl⟩

theorem conns_of_quiet {a : LoopAct} (quiet : a.quiet = true) (hs : s.step a = some t) :
    t.conns = s.conns ∧ t.next = s.next ∧ t.epoll = s.epoll := by
  unfold step at hs
  split at hs
  case isTrue => cases hs
  case isFalse =>
    split at hs
    case h_1 batch _ =>
      split at hs
      case isTrue =>
        cases hs
        exact ⟨rfl, rfl, rfl⟩
      case isFalse => cases hs
    case h_4 outcome r rest _ =>
      unfold dispatch at hs
      split at hs
      case h_1 =>
        cases hs
        exact ⟨rfl, rfl, rfl⟩
      case h_2 c _ =>
        split at hs
        case isTrue =>
          have kept := call_of_quiet quiet hs
          exact kept
        case isFalse =>
          split at hs
          case isTrue =>
            have kept := call_of_quiet quiet hs
            exact kept
          case isFalse =>
            cases hs
            exact ⟨rfl, rfl, rfl⟩
    all_goals cases hs

theorem handle_of_dispatch (hc : s.called = some (id, h))
    (hs : s.step (.dispatch outcome) = some t) : ∃ (u : Loop) (c : Conn),
      u.conns = s.conns ∧ u.next = s.next ∧ u.epoll = s.epoll ∧ s.conns id = some c ∧
      (c.readHandler = some h ∨ c.writeHandler = some h) ∧
      u.handle id c h outcome = some t := by
  unfold called at hc
  split at hc
  case h_1 => cases hc
  case h_2 r rest batch =>
    obtain ⟨c, conn, hc⟩ := Option.bind_eq_some_iff.mp hc
    obtain ⟨h', chosen, same⟩ := Option.map_eq_some_iff.mp hc
    cases same
    unfold step at hs
    split at hs
    case isTrue => cases hs
    case isFalse =>
      simp only [batch, dispatch, conn] at hs
      let u : Loop := ({ s with batch := rest }.note (.touch r.conn)).note (.call r.conn (some h))
      split at chosen
      case isTrue readable =>
        rw [if_pos readable, chosen] at hs
        exact ⟨u, c, rfl, rfl, rfl, conn, .inl chosen, hs⟩
      case isFalse silent =>
        split at chosen
        case isTrue writable =>
          rw [if_neg silent, if_pos writable, chosen] at hs
          exact ⟨u, c, rfl, rfl, rfl, conn, .inr chosen, hs⟩
        case isFalse => cases chosen

end Loop

structure Server where
  loop : Loop
  sessions : Nat → Option Session

namespace Server

def init (listenfd : Nat) : Server := ⟨.init listenfd, fun _ => none⟩

def deed (s : Server) (call : Call) : Option (Nat × Deed) :=
  match call, s.loop.called with
  | .accept _ raw mem, some (_, .webAccept) => some (s.loop.next, .accept raw mem)
  | .read d, some (id, .readRequest) => some (id, .read d)
  | .send r, some (id, .sendResponse) => some (id, .send r)
  | _, _ => none

def idle (s : Server) (call : Call) : Option Outcome :=
  match call, s.loop.called with
  | .acceptFailed, some (_, .webAccept) => some .acceptFailed
  | .nothing, some (_, .emptyEventHandler) => some .nothing
  | .nothing, none => some .nothing
  | _, _ => none

def onLoop (s : Server) (a : LoopAct) : Option Server :=
  (s.loop.step a).map fun l => { s with loop := l }

def onSession (s : Server) (call : Call) (id : Nat) (d : Deed) : Option Server :=
  (Session.next (s.sessions id) d).bind fun v =>
    (s.loop.step (.dispatch (call.outcome v))).map fun l =>
      ⟨l, Function.update s.sessions id (some v)⟩

def step (s : Server) : ServerAct → Option Server
  | .wait reports => s.onLoop (.wait reports)
  | .dispatch call =>
    match s.deed call with
    | some (id, d) => s.onSession call id d
    | none => (s.idle call).bind fun outcome => s.onLoop (.dispatch outcome)

def own (id : Nat) (s : Server) : ServerAct → Option Deed
  | .wait _ => none
  | .dispatch call => (s.deed call).bind fun d => if d.1 = id then some d.2 else none

inductive Step (s : Server) : ServerAct → Server → Prop
  | quiet {a b l} : (∀ id, s.own id a = none) → b.quiet = true → s.loop.step b = some l →
      Step s a { s with loop := l }
  | moves {call id d v l} : s.deed call = some (id, d) → Session.next (s.sessions id) d = some v →
      s.loop.step (.dispatch (call.outcome v)) = some l →
      Step s (.dispatch call) ⟨l, Function.update s.sessions id (some v)⟩

variable {s t : Server} {a : ServerAct} {id : Nat}

theorem quiet_of_idle {call : Call} {outcome : Outcome} (h : s.idle call = some outcome) :
    LoopAct.quiet (.dispatch outcome) = true := by
  unfold idle at h
  split at h
  case h_4 => cases h
  all_goals
    cases h
    rfl

theorem step_cases (h : s.step a = some t) : Step s a t := by
  cases a with
  | wait reports =>
    obtain ⟨l, hl, rfl⟩ := Option.map_eq_some_iff.mp h
    exact .quiet (fun _ => rfl) rfl hl
  | dispatch call =>
    simp only [step] at h
    cases hd : s.deed call with
    | none =>
      rw [hd] at h
      obtain ⟨outcome, idle, h⟩ := Option.bind_eq_some_iff.mp h
      obtain ⟨l, hl, rfl⟩ := Option.map_eq_some_iff.mp h
      exact .quiet (fun _ => by rw [own, hd, Option.bind_none]) (quiet_of_idle idle) hl
    | some d =>
      rw [hd] at h
      obtain ⟨v, hv, h⟩ := Option.bind_eq_some_iff.mp h
      obtain ⟨l, hl, rfl⟩ := Option.map_eq_some_iff.mp h
      exact .moves hd hv hl

/-- A connection moves with its own deeds and with nothing else. -/
theorem session_of_step (id : Nat) (h : s.step a = some t) :
    run Session.step (s.sessions id) (s.own id a).toList = some (t.sessions id) := by
  cases step_cases h with
  | quiet none _ _ =>
    rw [none id]
    rfl
  | @moves call id' d v l hd hv hl =>
    by_cases same : id' = id
    · subst same
      simp only [own, hd, Option.bind_some, if_true, Option.toList, run_cons, run_nil]
      rw [Session.step, hv, Function.update_self]
      rfl
    · simp only [own, hd, Option.bind_some, same, if_false, Option.toList, run_nil]
      rw [Function.update_of_ne (Ne.symm same)]

theorem session_of_history {listenfd : Nat} {ds : List Deed}
    (h : History step (own id) (init listenfd) ds s) :
    run Session.step none ds = some (s.sessions id) :=
  h.project (g := fun s => s.sessions id) fun _ _ _ _ hs => session_of_step id hs

end Server

section parts

variable {r r' : Reader} {act : ReadAct} {k : Control}

theorem control_of_step (h : r.conn.toControl = k ∨ r.conn.toControl = sent)
    (hs : Reader.Step r act r') : r'.conn.toControl = k ∨ r'.conn.toControl = sent := by
  cases hs with
  | enlarge _ hc => exact (enlarge_control hc) ▸ h
  | recv _ _ hc => exact (recvData_control hc) ▸ h
  | wouldBlock _ hc =>
    rcases parsed_of_processRequestLine hc with complete | ⟨same, -⟩
    · exact .inr complete
    · exact same ▸ h
  | event | enlargeFault | recvFault | crash | eof => exact h

theorem control_of_reach (h : Reach Reader.step r r') :
    r'.conn.toControl = r.conn.toControl ∨ r'.conn.toControl = sent := by
  refine h.invariant (I := fun q => q.conn.toControl = r.conn.toControl ∨ q.conn.toControl = sent)
    (.inl rfl) ?_
  intro q act q' _ ih _ hs
  exact control_of_step ih (Reader.step_cases hs)

end parts

namespace Session

/-- What the parts of a connection have been through. -/
structure Parts (v : Session) : Prop where
  reader : ∃ (raw : Fields) (mem : Nat → UInt8),
    Reach Reader.step (.start raw ((List.range queryInitLen).map mem)) v.reader
  sender : ∃ sends, run Sender.step .start sends = some v.sender

inductive Next : Option Session → Deed → Session → Prop
  | accept (raw : Fields) (mem : Nat → UInt8) : Next none (.accept raw mem) (accepted raw mem)
  | read {v d r} : run Reader.step v.reader d.acts = some r → r.pc = .idle ∨ r.pc = .closed →
      Next (some v) (.read d) { v with reader := r }
  | send {v r sender} : v.reader.conn.writeHandler = some .sendResponse →
      v.sender.step r = some sender → Next (some v) (.send r) { v with sender := sender }

variable {o : Option Session} {v w : Session} {d : Deed}

theorem next_cases (h : next o d = some w) : Next o d w := by
  unfold next at h
  split at h
  case h_1 raw mem =>
    cases h
    exact .accept raw mem
  case h_2 v d =>
    obtain ⟨r, hr, h⟩ := Option.bind_eq_some_iff.mp h
    split at h
    case isTrue returned =>
      cases h
      exact .read hr returned
    case isFalse => cases h
  case h_3 v r =>
    split at h
    case isTrue handler =>
      obtain ⟨sender, hs, rfl⟩ := Option.map_eq_some_iff.mp h
      exact .send handler hs
    case isFalse => cases h
  case h_4 => cases h

theorem Next.parts (h : Next o d w) (parts : ∀ v, o = some v → v.Parts) : w.Parts := by
  cases h with
  | accept raw mem => exact ⟨⟨raw, mem, .start⟩, [], rfl⟩
  | read hr _ =>
    obtain ⟨⟨raw, mem, reader⟩, sender⟩ := parts _ rfl
    exact ⟨⟨raw, mem, reader.trans (reach_of_run hr)⟩, sender⟩
  | @send v r sender _ hs =>
    obtain ⟨reader, sends, hr⟩ := parts _ rfl
    refine ⟨reader, sends ++ [r], ?_⟩
    rw [run_concat, hr]
    exact hs

theorem exists_of_read {reading : Reading} (h : next o (.read reading) = some w) :
    ∃ v, o = some v := by
  cases next_cases h
  exact ⟨_, rfl⟩

theorem exists_of_send {r : Sends} (h : next o (.send r) = some w) : ∃ v, o = some v := by
  cases next_cases h
  exact ⟨_, rfl⟩

theorem control_eq_some {k : Control} (h : v.control = some k) :
    v.reader.pc ≠ .closed ∧ v.sender.closed = false ∧ v.reader.conn.toControl = k := by
  unfold control at h
  split at h
  case isTrue => cases h
  case isFalse live =>
    obtain ⟨reader, sender⟩ := not_or.mp live
    exact ⟨reader, Bool.eq_false_iff.mpr sender, Option.some.inj h⟩

end Session

namespace Loop

variable {s : Loop} {id fd : Nat} {c : Conn}

theorem client_of_reads (inv : s.Inv) (hc : s.conns id = some c)
    (handler : c.readHandler = some .readRequest ∨ c.writeHandler = some .readRequest) :
    c.toControl = ⟨.read, some .readRequest, none⟩ := by
  obtain ⟨mask, -, shape⟩ := inv.live id c hc
  cases shape with
  | client => rfl
  | listening => simp [listening] at handler
  | sending => simp [sent] at handler

theorem conns_webAccept :
    (s.webAccept fd).conns = Function.update s.conns s.next (some (client fd)) := by
  unfold webAccept epollAddEvent
  split <;> rfl

theorem next_webAccept : (s.webAccept fd).next = s.next + 1 := by
  unfold webAccept epollAddEvent
  split <;> rfl

theorem conns_complete :
    (s.complete id c).conns = Function.update s.conns id (some { c with toControl := sent }) := by
  unfold complete epollModEvent
  split <;> rfl

theorem next_complete : (s.complete id c).next = s.next := by
  unfold complete epollModEvent
  split <;> rfl

end Loop

namespace Server

variable {listenfd : Nat} {s t : Server} {a : ServerAct} {call : Call} {id : Nat} {d : Deed}

inductive Works (s : Server) : Call → Nat → Deed → Prop
  | accept {connfd raw mem i} : s.loop.called = some (i, .webAccept) →
      Works s (.accept connfd raw mem) s.loop.next (.accept raw mem)
  | read {reading i} : s.loop.called = some (i, .readRequest) →
      Works s (.read reading) i (.read reading)
  | send {sends i} : s.loop.called = some (i, .sendResponse) →
      Works s (.send sends) i (.send sends)

theorem works_of_deed (h : s.deed call = some (id, d)) : Works s call id d := by
  unfold deed at h
  split at h
  case h_1 called => cases h; exact .accept called
  case h_2 called => cases h; exact .read called
  case h_3 called => cases h; exact .send called
  case h_4 => cases h

structure Agrees (listenfd : Nat) (s : Server) : Prop where
  inv : s.loop.Inv
  listening : s.loop.conns 0 = some (Loop.listening listenfd)
  known : ∀ id, (s.sessions id).isSome ↔ 0 < id ∧ id < s.loop.next
  control : ∀ id, id ≠ 0 →
    (s.loop.conns id).map Conn.toControl = (s.sessions id).bind Session.control
  parts : ∀ id v, s.sessions id = some v → v.Parts

theorem agrees_init (listenfd : Nat) : Agrees listenfd (init listenfd) where
  inv := Loop.inv_init listenfd
  listening := by simp [init, Loop.init]
  known := by
    intro id
    simp only [init, Loop.init, Option.isSome_none, Bool.false_eq_true, false_iff]
    omega
  control := by
    intro id first
    simp [init, Loop.init, first]
  parts := by
    intro id v hv
    cases hv

namespace Agrees

theorem pos (h : Agrees listenfd s) {v : Session} (hv : s.sessions id = some v) : id ≠ 0 :=
  ((h.known id).mp (by rw [hv]; rfl)).1.ne'

theorem control_of_called (h : Agrees listenfd s) {c : Conn} {v : Session}
    (hc : s.loop.conns id = some c) (hv : s.sessions id = some v) :
    v.control = some c.toControl := by
  have same := h.control id (h.pos hv)
  rw [hc, hv] at same
  exact same.symm

theorem moved (h : Agrees listenfd s) {l : Loop} {v w : Session} (hv : s.sessions id = some v)
    (inv : l.Inv) (next : l.next = s.loop.next) (others : ∀ i, i ≠ id → l.conns i = s.loop.conns i)
    (control : (l.conns id).map Conn.toControl = w.control) (parts : w.Parts) :
    Agrees listenfd ⟨l, Function.update s.sessions id (some w)⟩ where
  inv := inv
  listening := (others 0 (h.pos hv).symm).trans h.listening
  known := by
    intro i
    simp only [next]
    by_cases same : i = id
    · subst same
      rw [Function.update_self, ← h.known i, hv]
      rfl
    · rw [Function.update_of_ne same]
      exact h.known i
  control := by
    intro i first
    dsimp only
    by_cases same : i = id
    · subst same
      rw [Function.update_self]
      exact control
    · rw [Function.update_of_ne same, others i same]
      exact h.control i first
  parts := by
    intro i u hu
    dsimp only at hu
    by_cases same : i = id
    · subst same
      rw [Function.update_self] at hu
      cases hu
      exact parts
    · rw [Function.update_of_ne same] at hu
      exact h.parts i u hu

theorem accept (h : Agrees listenfd s) {l : Loop} {raw : Fields} {mem : Nat → UInt8} {fd : Nat}
    (inv : l.Inv) (next : l.next = s.loop.next + 1)
    (conns : l.conns = Function.update s.loop.conns s.loop.next (some (Loop.client fd))) :
    Agrees listenfd ⟨l, Function.update s.sessions s.loop.next (some (.accepted raw mem))⟩ := by
  have pos : 0 < s.loop.next := by
    by_contra none
    cases (h.inv.fresh 0 (Nat.le_of_not_lt none)).symm.trans h.listening
  constructor
  case inv => exact inv
  case listening =>
    dsimp only
    rw [conns, Function.update_of_ne pos.ne]
    exact h.listening
  case known =>
    intro i
    have known := h.known i
    dsimp only
    rw [next]
    by_cases same : i = s.loop.next
    · subst same
      rw [Function.update_self]
      simp [pos]
    · rw [Function.update_of_ne same, known]
      omega
  case control =>
    intro i first
    dsimp only
    rw [conns]
    by_cases same : i = s.loop.next
    · subst same
      rw [Function.update_self, Function.update_self]
      rfl
    · rw [Function.update_of_ne same, Function.update_of_ne same]
      exact h.control i first
  case parts =>
    intro i u hu
    dsimp only at hu
    by_cases same : i = s.loop.next
    · subst same
      rw [Function.update_self] at hu
      cases hu
      exact ⟨⟨raw, mem, .start⟩, [], rfl⟩
    · rw [Function.update_of_ne same] at hu
      exact h.parts i u hu

section handled

variable {u l : Loop} {c : Conn} {w : Session} (h : Agrees listenfd s) (inv : l.Inv)
  (conns : u.conns = s.loop.conns) (next : u.next = s.loop.next)
include h inv conns next

theorem of_accept {i connfd : Nat} {raw : Fields} {mem : Nat → UInt8}
    (hw : Session.next (s.sessions s.loop.next) (.accept raw mem) = some w)
    (ht : u.handle i c .webAccept (.accepted connfd) = some l) :
    Agrees listenfd ⟨l, Function.update s.sessions s.loop.next (some w)⟩ := by
  simp only [Loop.handle] at ht
  split at ht
  case isTrue => cases ht
  case isFalse =>
    cases ht
    have none : s.sessions s.loop.next = none := by
      refine Option.not_isSome_iff_eq_none.mp fun some => ?_
      exact absurd ((h.known _).mp some).2 (lt_irrefl _)
    rw [none] at hw
    cases hw
    have later : (u.webAccept connfd).next = s.loop.next + 1 := by rw [Loop.next_webAccept, next]
    have made : (u.webAccept connfd).conns =
        Function.update s.loop.conns s.loop.next (some (Loop.client connfd)) := by
      rw [Loop.conns_webAccept, conns, next]
    exact h.accept inv later made

variable {v : Session} (hc : s.loop.conns id = some c) (hv : s.sessions id = some v)
  (parts : w.Parts)
include hc hv parts

theorem kept (same : w.control = v.control) (ht : u = l) :
    Agrees listenfd ⟨l, Function.update s.sessions id (some w)⟩ := by
  subst ht
  refine h.moved hv inv next (fun i _ => congrFun conns i) ?_ parts
  rw [conns, hc, same, h.control_of_called hc hv]
  rfl

omit hc in
theorem freed (gone : w.control = none) (ht : (u.epollDelEvent c).closeConn id c = l) :
    Agrees listenfd ⟨l, Function.update s.sessions id (some w)⟩ := by
  subst ht
  refine h.moved hv inv next (fun i other => ?_) ?_ parts
  · exact (Function.update_of_ne other _ _).trans (congrFun conns i)
  · rw [gone]
    exact congrArg _ (Function.update_self id none u.conns)

omit hc in
theorem completed (done : w.control = some sent) (ht : u.complete id c = l) :
    Agrees listenfd ⟨l, Function.update s.sessions id (some w)⟩ := by
  subst ht
  refine h.moved hv inv (Loop.next_complete.trans next) (fun i other => ?_) ?_ parts
  · rw [Loop.conns_complete, Function.update_of_ne other, conns]
  · rw [Loop.conns_complete, Function.update_self, done]
    rfl

theorem of_read {reading : Reading}
    (handler : c.readHandler = some .readRequest ∨ c.writeHandler = some .readRequest)
    (hw : Session.Next (some v) (.read reading) w)
    (ht : u.handle id c .readRequest w.readOutcome = some l) :
    Agrees listenfd ⟨l, Function.update s.sessions id (some w)⟩ := by
  have client := Loop.client_of_reads h.inv hc handler
  cases hw with
  | @read _ _ r hr returned =>
    obtain ⟨-, unsent, control⟩ := Session.control_eq_some (h.control_of_called hc hv)
    rw [client] at control
    rcases returned with idle | closed
    · have live : ({ v with reader := r } : Session).control = some r.conn.toControl := by
        simp [Session.control, unsent, idle]
      rcases control_of_reach (reach_of_run hr) with same | complete
      · rw [control] at same
        have incomplete : ({ v with reader := r } : Session).readOutcome = .incomplete := by
          rw [Session.readOutcome, live, same]
          rfl
        rw [incomplete] at ht
        refine h.kept inv conns next hc hv parts ?_ (Option.some.inj ht)
        rw [live, same, h.control_of_called hc hv, client]
      · have complete' : ({ v with reader := r } : Session).readOutcome = .complete := by
          rw [Session.readOutcome, live, complete]
          rfl
        rw [complete'] at ht
        refine h.completed inv conns next hv parts ?_ (Option.some.inj ht)
        rw [live, complete]
    · have gone : ({ v with reader := r } : Session).control = none := by
        simp [Session.control, closed]
      have outcome : ({ v with reader := r } : Session).readOutcome = .closed := by
        rw [Session.readOutcome, gone]
      rw [outcome] at ht
      exact h.freed inv conns next hv parts gone (Option.some.inj ht)

theorem of_send {r : Sends} (hw : Session.Next (some v) (.send r) w)
    (ht : u.handle id c .sendResponse w.sendOutcome = some l) :
    Agrees listenfd ⟨l, Function.update s.sessions id (some w)⟩ := by
  cases hw with
  | @send _ _ sender _ hs =>
    cases closed : sender.closed with
    | false =>
      have outcome : ({ v with sender := sender } : Session).sendOutcome = .sendFailed := by
        simp [Session.sendOutcome, closed]
      rw [outcome] at ht
      refine h.kept inv conns next hc hv parts ?_ (Option.some.inj ht)
      simp [Session.control, closed, (Sender.step_cases hs).1]
    | true =>
      have outcome : ({ v with sender := sender } : Session).sendOutcome = .sent := by
        simp [Session.sendOutcome, closed]
      rw [outcome] at ht
      refine h.freed inv conns next hv parts ?_ (Option.some.inj ht)
      simp [Session.control, closed]

end handled

theorem step (h : Agrees listenfd s) (hs : s.step a = some t) : Agrees listenfd t := by
  cases step_cases hs with
  | quiet _ quiet hl =>
    obtain ⟨conns, next, -⟩ := Loop.conns_of_quiet quiet hl
    exact ⟨h.inv.step hl, conns ▸ h.listening, fun id => next ▸ h.known id,
      fun id first => conns ▸ h.control id first, h.parts⟩
  | @moves call id d w l hd hw hl =>
    have inv := h.inv.step hl
    have parts := (Session.next_cases hw).parts (h.parts id)
    cases works_of_deed hd with
    | accept called =>
      obtain ⟨u, c, conns, next, -, -, -, ht⟩ := Loop.handle_of_dispatch called hl
      exact h.of_accept inv conns next hw ht
    | read called =>
      obtain ⟨u, c, conns, next, -, hc, handler, ht⟩ := Loop.handle_of_dispatch called hl
      obtain ⟨v, hv⟩ := Session.exists_of_read hw
      exact h.of_read inv conns next hc hv parts handler (hv ▸ Session.next_cases hw) ht
    | send called =>
      obtain ⟨u, c, conns, next, -, hc, -, ht⟩ := Loop.handle_of_dispatch called hl
      obtain ⟨v, hv⟩ := Session.exists_of_send hw
      exact h.of_send inv conns next hc hv parts (hv ▸ Session.next_cases hw) ht

end Agrees

theorem agrees_of_reach (h : Reach step (init listenfd) s) : Agrees listenfd s :=
  h.invariant (agrees_init listenfd) fun _ _ _ _ ih _ hs => ih.step hs

/-- Every run of the server is one of its loop with one of each client's reader and sender, and the
loop takes every connection for what it is. -/
theorem runs_parts (h : Reach step (init listenfd) s) :
    Reach Loop.step (.init listenfd) s.loop ∧ (∀ id v, s.sessions id = some v → v.Parts) ∧
      (∀ id, (s.sessions id).isSome ↔ 0 < id ∧ id < s.loop.next) ∧
      ∀ id, id ≠ 0 →
        (s.loop.conns id).map Conn.toControl = (s.sessions id).bind Session.control := by
  have agrees := agrees_of_reach h
  refine ⟨h.map Server.loop fun s a t _ hs => .inr ?_, agrees.parts, agrees.known, agrees.control⟩
  cases step_cases hs with
  | quiet _ _ hl => exact ⟨_, hl⟩
  | moves _ _ hl => exact ⟨_, hl⟩

def readable (fd conn : Nat) : ServerAct := .wait [⟨fd, conn, ⟨true, false, false, false⟩⟩]

def arrival (connfd : Nat) : ServerAct := .dispatch (.accept connfd .zero fun _ => 0)

def twoClients : List ServerAct :=
  [readable 3 0, arrival 4, readable 3 0, arrival 5, readable 5 2,
    .dispatch (.read ⟨[], fun _ => 0, true⟩)]

theorem runs_parts_of_two : ∃ s : Server, s.loop.next = 3 ∧ s.loop.conns 2 = none ∧
    Reach Loop.step (.init 3) s.loop ∧ (s.sessions 2).bind Session.control = none := by
  obtain ⟨s, hs, hp⟩ := exists_reach step (init 3) twoClients
    (fun s => decide (s.loop.next = 3 ∧ s.loop.conns 2 = none)) (by decide)
  obtain ⟨next, gone⟩ := of_decide_eq_true hp
  obtain ⟨loop, -, -, control⟩ := runs_parts hs
  refine ⟨s, next, gone, loop, ?_⟩
  rw [← control 2 (by decide), gone]
  rfl

end Server

end Leano.Epoll
