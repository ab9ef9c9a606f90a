import Leano.Epoll.Segments
import Leano.Lib.Log

/-! The event loop of `src/epoll_event.cpp` with the handlers of `src/epoll_server.cpp`. -/

namespace Leano.Epoll

open Leano.Lib

structure Mask where
  epollin : Bool
  epollout : Bool
  deriving DecidableEq

structure Events where
  epollin : Bool
  epollout : Bool
  epollerr : Bool
  epollhup : Bool
  deriving DecidableEq

def Events.within (ev : Events) (mask : Mask) : Bool :=
  (!ev.epollin || mask.epollin) && (!ev.epollout || mask.epollout)

structure Conn extends Control where
  fd : Nat
  deriving DecidableEq

structure Report where
  fd : Nat
  conn : Nat
  events : Events
  deriving DecidableEq

/-- What happens to a connection: the loop reads it, it calls a handler on it (`none` is a pointer
nobody has assigned), `close_conn` frees it while it is registered or not. -/
inductive Entry where
  | touch (id : Nat)
  | call (id : Nat) (handler : Option Handler)
  | close (id : Nat) (registered : Bool)
  deriving DecidableEq

inductive Outcome where
  | acceptFailed
  | accepted (connfd : Nat)
  | closed
  | incomplete
  | complete
  | sendFailed
  | sent
  | nothing
  deriving DecidableEq

/-- `opened` are the descriptors in use, `epoll` those registered. `undefined` is set when the loop
uses freed memory or a pointer nobody has assigned. -/
structure Loop where
  conns : Nat → Option Conn
  opened : Nat → Bool
  epoll : Nat → Option (Nat × Mask)
  next : Nat
  batch : List Report
  undefined : Bool
  log : List Entry

inductive LoopAct where
  | wait (reports : List Report)
  | dispatch (outcome : Outcome)
  deriving DecidableEq

namespace Loop

def listening (fd : Nat) : Conn := ⟨⟨.accept, some .webAccept, none⟩, fd⟩

def client (fd : Nat) : Conn := ⟨⟨.read, some .readRequest, none⟩, fd⟩

def init (listenfd : Nat) : Loop where
  conns := Function.update (fun _ => none) 0 (some (listening listenfd))
  opened := fun fd => fd = listenfd
  epoll := Function.update (fun _ => none) listenfd (some (0, ⟨true, false⟩))
  next := 1
  batch := []
  undefined := false
  log := []

def note (s : Loop) (e : Entry) : Loop := { s with log := s.log ++ [e] }

def epollAddEvent (s : Loop) (id : Nat) (c : Conn) (mask : Mask) : Loop :=
  match s.epoll c.fd with
  | none => { s with epoll := Function.update s.epoll c.fd (some (id, mask)) }
  | some _ => s

def epollModEvent (s : Loop) (id : Nat) (c : Conn) (mask : Mask) : Loop :=
  match s.epoll c.fd with
  | none => s
  | some _ => { s with epoll := Function.update s.epoll c.fd (some (id, mask)) }

def epollDelEvent (s : Loop) (c : Conn) : Loop :=
  { s with epoll := Function.update s.epoll c.fd none }

def closeConn (s : Loop) (id : Nat) (c : Conn) : Loop :=
  { s with
    conns := Function.update s.conns id none
    opened := Function.update s.opened c.fd false
    epoll := Function.update s.epoll c.fd none
    log := s.log ++ [.close id (s.epoll c.fd).isSome] }

def webAccept (s : Loop) (connfd : Nat) : Loop :=
  { s with
    conns := Function.update s.conns s.next (some (client connfd))
    opened := Function.update s.opened connfd true
    next := s.next + 1 }.epollAddEvent s.next (client connfd) ⟨true, false⟩

def complete (s : Loop) (id : Nat) (c : Conn) : Loop :=
  { s with conns := Function.update s.conns id (some { c with toControl := sent }) }.epollModEvent
    id c ⟨false, true⟩

def handle (s : Loop) (id : Nat) (c : Conn) : Handler → Outcome → Option Loop
  | .webAccept, .acceptFailed => some s
  | .webAccept, .accepted connfd => if s.opened connfd then none else some (s.webAccept connfd)
  | .readRequest, .closed => some ((s.epollDelEvent c).closeConn id c)
  | .readRequest, .incomplete => some s
  | .readRequest, .complete => some (s.complete id c)
  | .sendResponse, .sendFailed => some s
  | .sendResponse, .sent => some ((s.epollDelEvent c).closeConn id c)
  | .emptyEventHandler, .nothing => some s
  | _, _ => none

def call (s : Loop) (id : Nat) (c : Conn) (handler : Option Handler) (outcome : Outcome) :
    Option Loop :=
  match handler with
  | none => some { s.note (.call id none) with undefined := true }
  | some h => (s.note (.call id (some h))).handle id c h outcome

def dispatch (s : Loop) (id : Nat) (ev : Events) (outcome : Outcome) : Option Loop :=
  match s.conns id with
  | none => some { s.note (.touch id) with undefined := true }
  | some c =>
    if ev.epollin then (s.note (.touch id)).call id c c.readHandler outcome
    else if ev.epollout then (s.note (.touch id)).call id c c.writeHandler outcome
    else some (s.note (.touch id))

/-- What `epoll_wait` may report of a descriptor. -/
def reports (s : Loop) (r : Report) : Bool :=
  (s.epoll r.fd).any fun e => decide (e.1 = r.conn) && r.events.within e.2

def step (s : Loop) (a : LoopAct) : Option Loop :=
  if s.undefined then none
  else
    match a, s.batch with
    | .wait batch, [] =>
      if (batch.map Report.conn).Nodup ∧ batch.all s.reports then some { s with batch := batch }
      else none
    | .wait _, _ => none
    | .dispatch _, [] => none
    | .dispatch outcome, r :: rest =>
      { s with batch := rest }.dispatch r.conn r.events outcome

end Loop

/-- The loop uses connections and handlers it has, and frees a connection once, after taking it off
the epoll. -/
def Entry.Ok (before : List Entry) : Entry → Prop
  | .touch id => ∀ r, .close id r ∉ before
  | .call id handler => handler.isSome ∧ ∀ r, .close id r ∉ before
  | .close id registered => registered = false ∧ ∀ r, .close id r ∉ before

inductive Shape : Conn → Mask → Prop
  | listening (fd : Nat) : Shape (Loop.listening fd) ⟨true, false⟩
  | client (fd : Nat) : Shape (Loop.client fd) ⟨true, false⟩
  | sending (fd : Nat) : Shape ⟨sent, fd⟩ ⟨false, true⟩

namespace Loop

variable {s t : Loop} {id fd : Nat} {c : Conn} {r : Report} {rest : List Report}

def Reported (s : Loop) (r : Report) : Prop :=
  ∃ mask, s.epoll r.fd = some (r.conn, mask) ∧ r.events.within mask

structure Inv (s : Loop) : Prop where
  defined : s.undefined = false
  history : Consistent Entry.Ok s.log
  fresh : ∀ id, s.next ≤ id → s.conns id = none
  bound : ∀ id r, .close id r ∈ s.log → id < s.next
  closed : ∀ id r, .close id r ∈ s.log → s.conns id = none
  live : ∀ id c, s.conns id = some c → ∃ mask, s.epoll c.fd = some (id, mask) ∧ Shape c mask
  registered : ∀ fd id mask, s.epoll fd = some (id, mask) → ∃ c, s.conns id = some c ∧ c.fd = fd
  opened : ∀ fd, s.opened fd = false → s.epoll fd = none
  distinct : (s.batch.map Report.conn).Nodup
  reported : ∀ r ∈ s.batch, s.Reported r

theorem reported_of_reports (h : s.reports r) : s.Reported r := by
  unfold reports at h
  cases he : s.epoll r.fd with
  | none => simp [he] at h
  | some e =>
    simp only [he, Option.any_some, Bool.and_eq_true, decide_eq_true_eq] at h
    exact ⟨e.2, by rw [he, ← h.1], h.2⟩

theorem inv_init (listenfd : Nat) : Inv (init listenfd) where
  defined := rfl
  history := consistent_nil
  fresh := by
    intro id hid
    have other : id ≠ 0 := Nat.ne_of_gt hid
    simp [init, other]
  bound := nofun
  closed := nofun
  live := by
    intro id c hc
    by_cases first : id = 0
    · subst first
      simp only [init, Function.update_self, Option.some.injEq] at hc
      subst hc
      exact ⟨⟨true, false⟩, by simp [init, listening], .listening listenfd⟩
    · simp [init, first] at hc
  registered := by
    intro fd id mask he
    by_cases same : fd = listenfd
    · subst same
      simp only [init, Function.update_self, Option.some.injEq, Prod.mk.injEq] at he
      rw [← he.1]
      exact ⟨listening fd, by simp [init], rfl⟩
    · simp [init, same] at he
  opened := by
    intro fd hfd
    have other : fd ≠ listenfd := by simpa [init] using hfd
    simp [init, other]
  distinct := List.nodup_nil
  reported := nofun

namespace Inv

theorem not_closed (h : s.Inv) (hc : s.conns id = some c) (r : Bool) : .close id r ∉ s.log := by
  intro hr
  simp [h.closed id r hr] at hc

theorem note {e : Entry} (h : s.Inv) (he : e.Ok s.log) (hn : ∀ id r, e ≠ .close id r) :
    (s.note e).Inv where
  defined := h.defined
  history := h.history.snoc he
  fresh := h.fresh
  bound := by
    intro id r hr
    exact h.bound id r ((List.mem_append.mp hr).resolve_right (by simpa using (hn id r).symm))
  closed := by
    intro id r hr
    exact h.closed id r ((List.mem_append.mp hr).resolve_right (by simpa using (hn id r).symm))
  live := h.live
  registered := h.registered
  opened := h.opened
  distinct := h.distinct
  reported := h.reported

theorem pop (h : s.Inv) (hb : s.batch = r :: rest) : Inv { s with batch := rest } where
  defined := h.defined
  history := h.history
  fresh := h.fresh
  bound := h.bound
  closed := h.closed
  live := h.live
  registered := h.registered
  opened := h.opened
  distinct := by
    have distinct := h.distinct
    rw [hb, List.map_cons] at distinct
    exact distinct.of_cons
  reported := by
    intro r' hr
    exact h.reported r' (hb ▸ List.mem_cons_of_mem _ hr)

theorem wait (h : s.Inv) {batch : List Report} (distinct : (batch.map Report.conn).Nodup)
    (hr : batch.all s.reports) : Inv { s with batch := batch } where
  defined := h.defined
  history := h.history
  fresh := h.fresh
  bound := h.bound
  closed := h.closed
  live := h.live
  registered := h.registered
  opened := h.opened
  distinct := distinct
  reported := by
    intro r hmem
    exact reported_of_reports (List.all_eq_true.mp hr r hmem)

theorem fd_ne {id' : Nat} {c' : Conn} (h : s.Inv) (hc : s.conns id = some c)
    (hc' : s.conns id' = some c') (hne : id' ≠ id) : c'.fd ≠ c.fd := by
  intro same
  obtain ⟨mask, he, -⟩ := h.live id c hc
  obtain ⟨mask', he', -⟩ := h.live id' c' hc'
  rw [same, he] at he'
  cases he'
  exact hne rfl

theorem registered_of_ne {id' : Nat} {mask : Mask} (h : s.Inv) (hc : s.conns id = some c)
    (he : s.epoll fd = some (id', mask)) (hne : fd ≠ c.fd) :
    ∃ c', id' ≠ id ∧ s.conns id' = some c' ∧ c'.fd = fd := by
  obtain ⟨c', hc', hfd⟩ := h.registered fd id' mask he
  refine ⟨c', ?_, hc', hfd⟩
  rintro rfl
  rw [hc] at hc'
  cases hc'
  exact hne hfd.symm

theorem fd_ne_of_reported (h : s.Inv) (hc : s.conns id = some c) (hr : s.Reported r)
    (hne : r.conn ≠ id) : r.fd ≠ c.fd := by
  obtain ⟨mask, he, -⟩ := hr
  obtain ⟨c', hc', hfd⟩ := h.registered _ _ _ he
  rw [← hfd]
  exact h.fd_ne hc hc' hne

theorem webAccept (h : s.Inv) (hfd : s.opened fd = false) : (s.webAccept fd).Inv := by
  have free := h.opened fd hfd
  have shape : s.webAccept fd =
      { s with
        conns := Function.update s.conns s.next (some (Loop.client fd))
        opened := Function.update s.opened fd true
        next := s.next + 1
        epoll := Function.update s.epoll fd (some (s.next, ⟨true, false⟩)) } := by
    simp [Loop.webAccept, epollAddEvent, Loop.client, free]
  rw [shape]
  constructor
  case defined => exact h.defined
  case history => exact h.history
  case fresh =>
    intro id hid
    have later : s.next < id := hid
    exact (Function.update_of_ne later.ne' _ _).trans (h.fresh id later.le)
  case bound =>
    intro id r hr
    exact Nat.lt_succ_of_lt (h.bound id r hr)
  case closed =>
    intro id r hr
    exact (Function.update_of_ne (h.bound id r hr).ne _ _).trans (h.closed id r hr)
  case live =>
    intro id c hc
    by_cases new : id = s.next
    · subst new
      simp only [Function.update_self, Option.some.injEq] at hc
      subst hc
      exact ⟨_, Function.update_self _ _ _, .client fd⟩
    · simp only [Function.update_of_ne new] at hc
      obtain ⟨mask, he, shape⟩ := h.live id c hc
      have other : c.fd ≠ fd := by
        rintro rfl
        simp [free] at he
      exact ⟨mask, (Function.update_of_ne other _ _).trans he, shape⟩
  case registered =>
    intro fd' id mask he
    by_cases same : fd' = fd
    · subst same
      simp only [Function.update_self, Option.some.injEq, Prod.mk.injEq] at he
      rw [← he.1]
      exact ⟨_, Function.update_self _ _ _, rfl⟩
    · simp only [Function.update_of_ne same] at he
      obtain ⟨c, hc, hfd'⟩ := h.registered fd' id mask he
      have old : id ≠ s.next := by
        rintro rfl
        simp [h.fresh s.next le_rfl] at hc
      exact ⟨c, (Function.update_of_ne old _ _).trans hc, hfd'⟩
  case opened =>
    intro fd' hfd'
    by_cases same : fd' = fd
    · simp [same] at hfd'
    · simp only [Function.update_of_ne same] at hfd' ⊢
      exact h.opened fd' hfd'
  case distinct => exact h.distinct
  case reported =>
    intro r hr
    obtain ⟨mask, he, hw⟩ := h.reported r hr
    have other : r.fd ≠ fd := by
      rintro rfl
      simp [free] at he
    exact ⟨mask, (Function.update_of_ne other _ _).trans he, hw⟩

theorem complete (h : s.Inv) (hc : s.conns id = some c) (hid : id ∉ s.batch.map Report.conn) :
    (s.complete id c).Inv := by
  obtain ⟨mask, he, -⟩ := h.live id c hc
  have shape : s.complete id c =
      { s with
        conns := Function.update s.conns id (some { c with toControl := sent })
        epoll := Function.update s.epoll c.fd (some (id, ⟨false, true⟩)) } := by
    simp [Loop.complete, epollModEvent, he]
  rw [shape]
  constructor
  case defined => exact h.defined
  case history => exact h.history
  case fresh =>
    intro id' hid'
    have other : id' ≠ id := by
      rintro rfl
      simp [h.fresh id' hid'] at hc
    exact (Function.update_of_ne other _ _).trans (h.fresh id' hid')
  case bound => exact h.bound
  case closed =>
    intro id' r hr
    have other : id' ≠ id := by
      rintro rfl
      exact h.not_closed hc r hr
    exact (Function.update_of_ne other _ _).trans (h.closed id' r hr)
  case live =>
    intro id' c' hc'
    by_cases same : id' = id
    · subst same
      simp only [Function.update_self, Option.some.injEq] at hc'
      subst hc'
      exact ⟨_, Function.update_self _ _ _, .sending c.fd⟩
    · simp only [Function.update_of_ne same] at hc'
      obtain ⟨mask, he, shape⟩ := h.live id' c' hc'
      exact ⟨mask, (Function.update_of_ne (h.fd_ne hc hc' same) _ _).trans he, shape⟩
  case registered =>
    intro fd id' mask' he'
    by_cases same : fd = c.fd
    · subst same
      simp only [Function.update_self, Option.some.injEq, Prod.mk.injEq] at he'
      rw [← he'.1]
      exact ⟨_, Function.update_self _ _ _, rfl⟩
    · simp only [Function.update_of_ne same] at he'
      obtain ⟨c', other, hc', hfd⟩ := h.registered_of_ne hc he' same
      exact ⟨c', (Function.update_of_ne other _ _).trans hc', hfd⟩
  case opened =>
    intro fd hfd
    have other : fd ≠ c.fd := by
      rintro rfl
      simp [h.opened c.fd hfd] at he
    exact (Function.update_of_ne other _ _).trans (h.opened fd hfd)
  case distinct => exact h.distinct
  case reported =>
    intro r hr
    have other := h.fd_ne_of_reported hc (h.reported r hr)
      (fun same => hid (same ▸ List.mem_map_of_mem hr))
    obtain ⟨mask, he, hw⟩ := h.reported r hr
    exact ⟨mask, (Function.update_of_ne other _ _).trans he, hw⟩

theorem close (h : s.Inv) (hc : s.conns id = some c) (hid : id ∉ s.batch.map Report.conn) :
    ((s.epollDelEvent c).closeConn id c).Inv where
  defined := h.defined
  history := by
    refine h.history.snoc ⟨?_, h.not_closed hc⟩
    simp [epollDelEvent]
  fresh := by
    intro id' hid'
    by_cases same : id' = id
    · simp [closeConn, same]
    · simpa [closeConn, same, epollDelEvent] using h.fresh id' hid'
  bound := by
    intro id' r hr
    rcases List.mem_append.mp hr with old | new
    · exact h.bound id' r old
    · cases List.mem_singleton.mp new
      by_contra hge
      simp [h.fresh id (Nat.le_of_not_lt hge)] at hc
  closed := by
    intro id' r hr
    by_cases same : id' = id
    · simp [closeConn, same]
    · rcases List.mem_append.mp hr with old | new
      · simpa [closeConn, same, epollDelEvent] using h.closed id' r old
      · cases List.mem_singleton.mp new
        exact absurd rfl same
  live := by
    intro id' c' hc'
    by_cases same : id' = id
    · simp [closeConn, same] at hc'
    · simp only [closeConn, epollDelEvent, Function.update_of_ne same] at hc'
      have other := h.fd_ne hc hc' same
      simpa [closeConn, epollDelEvent, other] using h.live id' c' hc'
  registered := by
    intro fd id' mask he
    by_cases same : fd = c.fd
    · simp [closeConn, same] at he
    · simp only [closeConn, epollDelEvent, Function.update_of_ne same] at he
      obtain ⟨c', other, hc', hfd⟩ := h.registered_of_ne hc he same
      exact ⟨c', (Function.update_of_ne other _ _).trans hc', hfd⟩
  opened := by
    intro fd hfd
    by_cases same : fd = c.fd
    · simp [closeConn, same]
    · simp only [closeConn, epollDelEvent, Function.update_of_ne same] at hfd ⊢
      exact h.opened fd hfd
  distinct := h.distinct
  reported := by
    intro r hr
    have other := h.fd_ne_of_reported hc (h.reported r hr)
      (fun same => hid (same ▸ List.mem_map_of_mem hr))
    obtain ⟨mask, he, hw⟩ := h.reported r hr
    refine ⟨mask, ?_, hw⟩
    simpa [closeConn, epollDelEvent, other] using he

theorem handle {handler : Handler} {outcome : Outcome} (h : s.Inv) (hc : s.conns id = some c)
    (hid : id ∉ s.batch.map Report.conn) (ht : s.handle id c handler outcome = some t) : t.Inv := by
  unfold Loop.handle at ht
  split at ht
  case h_2 connfd =>
    by_cases used : s.opened connfd = true
    · simp [used] at ht
    · rw [if_neg used] at ht
      cases ht
      exact h.webAccept (by simpa using used)
  case h_3 | h_7 =>
    cases ht
    exact h.close hc hid
  case h_5 =>
    cases ht
    exact h.complete hc hid
  case h_9 => cases ht
  all_goals
    cases ht
    exact h

theorem call {handler : Option Handler} {outcome : Outcome} (h : s.Inv)
    (hc : s.conns id = some c) (hid : id ∉ s.batch.map Report.conn) (assigned : handler.isSome)
    (ht : s.call id c handler outcome = some t) : t.Inv := by
  obtain ⟨handler, rfl⟩ := Option.isSome_iff_exists.mp assigned
  have noted : (s.note (.call id (some handler))).Inv :=
    h.note ⟨rfl, h.not_closed hc⟩ (fun _ _ => nofun)
  exact noted.handle hc hid ht

theorem dispatch {outcome : Outcome} (h : s.Inv) (hr : s.Reported r)
    (hid : r.conn ∉ s.batch.map Report.conn)
    (ht : s.dispatch r.conn r.events outcome = some t) : t.Inv := by
  obtain ⟨mask, he, within⟩ := hr
  obtain ⟨c, hc, hfd⟩ := h.registered _ _ _ he
  obtain ⟨mask', he', shape⟩ := h.live _ _ hc
  have same : mask = mask' := by
    rw [hfd, he] at he'
    cases he'
    rfl
  subst same
  have noted : (s.note (.touch r.conn)).Inv := h.note (h.not_closed hc) (fun _ _ => nofun)
  simp only [Events.within, Bool.and_eq_true, Bool.or_eq_true, Bool.not_eq_true'] at within
  simp only [Loop.dispatch, hc] at ht
  by_cases readable : r.events.epollin = true
  · rw [if_pos readable] at ht
    apply noted.call hc hid ?_ ht
    cases shape with
    | listening | client => rfl
    | sending => simp [readable] at within
  · rw [if_neg readable] at ht
    by_cases writable : r.events.epollout = true
    · rw [if_pos writable] at ht
      apply noted.call hc hid ?_ ht
      cases shape with
      | sending => rfl
      | listening | client => simp [writable] at within
    · rw [if_neg writable] at ht
      cases ht
      exact noted

theorem step {a : LoopAct} (h : s.Inv) (ht : s.step a = some t) : t.Inv := by
  unfold Loop.step at ht
  rw [if_neg (by simp [h.defined])] at ht
  split at ht
  case h_1 batch hb =>
    split at ht
    case isTrue reports =>
      cases ht
      exact h.wait reports.1 reports.2
    case isFalse => cases ht
  case h_4 outcome r rest hb =>
    have distinct := h.distinct
    rw [hb, List.map_cons, List.nodup_cons] at distinct
    exact (h.pop hb).dispatch (h.reported r (hb ▸ List.mem_cons_self)) distinct.1 ht
  all_goals cases ht

end Inv

theorem inv_of_reach {listenfd : Nat} (h : Reach step (init listenfd) s) : s.Inv :=
  h.invariant (inv_init listenfd) fun _ _ _ _ hi _ hs => hi.step hs

/-- The loop works on connections that are there and handlers that are set; a connection that is
registered for output is about to be sent its response. -/
theorem dispatches_live {listenfd : Nat} (h : Reach step (init listenfd) s) :
    s.undefined = false ∧ Consistent Entry.Ok s.log ∧
      ∀ fd id mask, s.epoll fd = some (id, mask) → mask.epollout →
        s.conns id = some ⟨⟨.sendData, some .emptyEventHandler, some .sendResponse⟩, fd⟩ := by
  have inv := inv_of_reach h
  refine ⟨inv.defined, inv.history, ?_⟩
  intro fd id mask he writable
  obtain ⟨c, hc, rfl⟩ := inv.registered fd id mask he
  obtain ⟨mask', he', shape⟩ := inv.live id c hc
  rw [he] at he'
  cases he'
  cases shape with
  | sending => exact hc
  | listening | client => cases writable

theorem dispatches_live_of_request :
    ∃ s, Reach step (init 3) s ∧ s.epoll 4 = some (1, ⟨false, true⟩) ∧
      s.conns 1 = some ⟨⟨.sendData, some .emptyEventHandler, some .sendResponse⟩, 4⟩ ∧
      s.undefined = false ∧ Consistent Entry.Ok s.log := by
  obtain ⟨s, hs, he⟩ := exists_reach step (init 3)
    [.wait [⟨3, 0, ⟨true, false, false, false⟩⟩], .dispatch (.accepted 4),
      .wait [⟨4, 1, ⟨true, false, false, false⟩⟩], .dispatch .complete]
    (fun s => s.epoll 4 = some (1, ⟨false, true⟩)) (by decide)
  have he := of_decide_eq_true he
  obtain ⟨defined, history, sending⟩ := dispatches_live hs
  exact ⟨s, hs, he, sending 4 1 _ he rfl, defined, history⟩

end Loop

section handled

variable {fill : Nat → UInt8} {pending segment : List UInt8} {c c' : WebConnection}

theorem recvLoop_control {n : Nat} (h : recvLoop fill n pending c = .ok (some c')) :
    c'.toControl = c.toControl := by
  induction n generalizing pending c with
  | zero => cases h
  | succ n ih =>
    obtain ⟨r, hr, h⟩ := bind_eq_ok h
    cases recvRound_cases hr with
    | wouldBlock he =>
      cases h
      exact enlarge_control he
    | eof => cases h
    | data he _ hd => exact (ih h).trans ((recvData_control hd).trans (enlarge_control he))

theorem handle_of_readRequest {s : Loop} {id fd : Nat} {result : Option WebConnection}
    (hc : s.conns id = some ⟨c.toControl, fd⟩) (h : readRequest fill segment c = .ok result) :
    ∃ outcome t, s.handle id ⟨c.toControl, fd⟩ .readRequest outcome = some t ∧
      t.conns id = result.map fun c' => ⟨c'.toControl, fd⟩ := by
  obtain ⟨read, hl, h⟩ := bind_eq_ok h
  cases read with
  | none =>
    cases h
    exact ⟨.closed, _, rfl, by simp [Loop.closeConn]⟩
  | some c₁ =>
    obtain ⟨c₂, hp, h⟩ := bind_eq_ok h
    cases h
    rcases parsed_of_processRequestLine hp with done | ⟨control, -⟩
    · refine ⟨.complete, _, rfl, ?_⟩
      simp only [Loop.complete, Loop.epollModEvent]
      split
      all_goals simp [done]
    · refine ⟨.incomplete, _, rfl, ?_⟩
      rw [hc, Option.map_some, control, recvLoop_control hl]

end handled

end Leano.Epoll
