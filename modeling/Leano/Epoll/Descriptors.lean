import Leano.Epoll.Server

namespace Leano.Epoll

open Leano.Lib

namespace Loop

def closes (s : Loop) (id : Nat) : Nat :=
  s.log.countP fun e => e = .close id true ∨ e = .close id false

def fds (s : Loop) (id : Nat) : Option Nat := (s.conns id).map Conn.fd

inductive Change (s : Loop) : Loop → Prop
  | kept {t} : t.fds = s.fds → t.opened = s.opened → t.next = s.next →
      (∀ id, t.closes id = s.closes id) → Change s t
  | accept {t fd} : s.opened fd = false → t.fds = Function.update s.fds s.next (some fd) →
      t.opened = Function.update s.opened fd true → t.next = s.next + 1 →
      (∀ id, t.closes id = s.closes id) → Change s t
  | close {t id fd} : s.fds id = some fd → t.fds = Function.update s.fds id none →
      t.opened = Function.update s.opened fd false → t.next = s.next →
      (∀ i, t.closes i = s.closes i + if i = id then 1 else 0) → Change s t

variable {s t u : Loop} {id : Nat} {c : Conn} {h : Handler} {outcome : Outcome}

theorem closes_note {e : Entry} (other : ∀ i r, e ≠ .close i r) (id : Nat) :
    (s.note e).closes id = s.closes id := by
  simp [closes, note, other]

theorem closes_closeConn (i : Nat) :
    ((s.epollDelEvent c).closeConn id c).closes i = s.closes i + if i = id then 1 else 0 := by
  by_cases same : i = id
  · subst same
    simp [closes, closeConn, epollDelEvent]
  · simp [closes, closeConn, epollDelEvent, same, Ne.symm same]

theorem opened_webAccept {fd : Nat} :
    (s.webAccept fd).opened = Function.update s.opened fd true := by
  unfold webAccept epollAddEvent
  split <;> rfl

theorem log_webAccept {fd : Nat} : (s.webAccept fd).log = s.log := by
  unfold webAccept epollAddEvent
  split <;> rfl

theorem opened_complete : (s.complete id c).opened = s.opened := by
  unfold complete epollModEvent
  split <;> rfl

theorem log_complete : (s.complete id c).log = s.log := by
  unfold complete epollModEvent
  split <;> rfl

theorem fds_update {o : Option Conn} (conns : t.conns = Function.update s.conns id o) :
    t.fds = Function.update s.fds id (o.map Conn.fd) := by
  funext i
  rw [fds, conns]
  by_cases same : i = id
  · subst same
    rw [Function.update_self, Function.update_self]
  · rw [Function.update_of_ne same, Function.update_of_ne same]
    rfl

theorem fds_complete (hc : s.conns id = some c) : (s.complete id c).fds = s.fds := by
  have found : s.fds id = some c.fd := congrArg (Option.map Conn.fd) hc
  rw [fds_update conns_complete, Option.map_some, ← found, Function.update_eq_self]

theorem fds_closeConn :
    ((s.epollDelEvent c).closeConn id c).fds = Function.update s.fds id none :=
  fds_update (s := s) (t := (s.epollDelEvent c).closeConn id c) (o := none) rfl

theorem change_of_handle (hc : s.conns id = some c) (ht : s.handle id c h outcome = some t) :
    Change s t := by
  unfold handle at ht
  split at ht
  case h_2 fd =>
    split at ht
    case isTrue => cases ht
    case isFalse free =>
      cases ht
      refine .accept (Bool.eq_false_iff.mpr free) (fds_update conns_webAccept) opened_webAccept
        next_webAccept ?_
      intro id
      rw [closes, log_webAccept, closes]
  case h_3 | h_7 =>
    cases ht
    exact .close (congrArg (Option.map Conn.fd) hc) fds_closeConn rfl rfl closes_closeConn
  case h_5 =>
    cases ht
    refine .kept (fds_complete hc) opened_complete next_complete ?_
    intro id
    rw [closes, log_complete, closes]
  case h_9 => cases ht
  all_goals
    cases ht
    exact .kept rfl rfl rfl fun _ => rfl

theorem Change.of_noted (hu : Change u t) (fds : u.fds = s.fds) (opened : u.opened = s.opened)
    (next : u.next = s.next) (closes : ∀ id, u.closes id = s.closes id) : Change s t := by
  cases hu with
  | kept hc ho hn hcl =>
    exact .kept (hc.trans fds) (ho.trans opened) (hn.trans next) fun i =>
      (hcl i).trans (closes i)
  | accept free hc ho hn hcl =>
    rw [opened] at free ho
    rw [fds, next] at hc
    rw [next] at hn
    exact .accept free hc ho hn fun i => (hcl i).trans (closes i)
  | close found hc ho hn hcl =>
    rw [fds] at found hc
    rw [opened] at ho
    exact .close found hc ho (hn.trans next) fun i => (hcl i).trans (by rw [closes])

theorem change_of_call {handler : Option Handler} (hc : s.conns id = some c)
    (ht : s.call id c handler outcome = some t) : Change s t := by
  cases handler with
  | none =>
    cases ht
    exact .kept rfl rfl rfl (closes_note (s := s) (by simp))
  | some h =>
    have handled : Change (s.note (.call id (some h))) t := change_of_handle hc ht
    exact handled.of_noted rfl rfl rfl (closes_note (by simp))

theorem change_of_step {a : LoopAct} (hs : s.step a = some t) : Change s t := by
  unfold step at hs
  split at hs
  case isTrue => cases hs
  case isFalse =>
    split at hs
    case h_1 batch _ =>
      split at hs
      case isTrue =>
        cases hs
        exact .kept rfl rfl rfl fun _ => rfl
      case isFalse => cases hs
    case h_4 outcome r rest _ =>
      let u : Loop := { s with batch := rest }
      have touched (id : Nat) : (u.note (.touch r.conn)).closes id = s.closes id :=
        closes_note (s := u) (by simp) id
      unfold dispatch at hs
      split at hs
      case h_1 =>
        cases hs
        exact .kept rfl rfl rfl touched
      case h_2 c found =>
        have called {handler : Option Handler}
            (ht : (u.note (.touch r.conn)).call r.conn c handler outcome = some t) :
            Change s t := by
          have changed : Change (u.note (.touch r.conn)) t := change_of_call found ht
          exact changed.of_noted rfl rfl rfl touched
        split at hs
        case isTrue => exact called hs
        case isFalse =>
          split at hs
          case isTrue => exact called hs
          case isFalse =>
            cases hs
            exact .kept rfl rfl rfl touched
    all_goals cases hs

/-- The descriptors in use are those of the connections that are there, each of its own; of the
connections there have been, the others have been closed once. -/
structure Ledger (s : Loop) : Prop where
  used : ∀ fd, s.opened fd = true ↔ ∃ id, s.fds id = some fd
  apart : ∀ id id' fd, s.fds id = some fd → s.fds id' = some fd → id = id'
  fresh : ∀ id, s.next ≤ id → s.fds id = none
  closes : ∀ id, s.closes id = if id < s.next ∧ s.fds id = none then 1 else 0

theorem fds_init (listenfd : Nat) :
    (init listenfd).fds = Function.update (fun _ => none) 0 (some listenfd) := by
  funext id
  by_cases first : id = 0
  · subst first
    simp [fds, init, listening]
  · simp [fds, init, first]

theorem ledger_init (listenfd : Nat) : Ledger (init listenfd) where
  used := by
    intro fd
    rw [fds_init]
    constructor
    · intro used
      have same : fd = listenfd := by simpa [init] using used
      exact ⟨0, by rw [same, Function.update_self]⟩
    · rintro ⟨id, found⟩
      by_cases first : id = 0
      · subst first
        simpa [init] using found.symm
      · simp [first] at found
  apart := by
    intro id id' fd found found'
    rw [fds_init] at found found'
    by_cases first : id = 0
    · by_cases first' : id' = 0
      · rw [first, first']
      · simp [first'] at found'
    · simp [first] at found
  fresh := by
    intro id later
    have other : id ≠ 0 := Nat.ne_of_gt later
    rw [fds_init, Function.update_of_ne other]
  closes := by
    intro id
    rw [fds_init, if_neg]
    · rfl
    · rintro ⟨early, gone⟩
      obtain rfl : id = 0 := Nat.lt_one_iff.mp early
      simp at gone

theorem Ledger.change (h : Ledger s) (hs : Change s t) : Ledger t := by
  cases hs with
  | kept fds opened next closes =>
    refine ⟨?_, ?_, ?_, fun id => ?_⟩
    · rw [fds, opened]
      exact h.used
    · rw [fds]
      exact h.apart
    · rw [fds, next]
      exact h.fresh
    · rw [closes, fds, next]
      exact h.closes id
  | @accept fd free fds opened next closes =>
    have unused (id : Nat) : s.fds id ≠ some fd := by
      intro found
      rw [(h.used fd).mpr ⟨id, found⟩] at free
      cases free
    have old {i fd' : Nat} (found : t.fds i = some fd') :
        i = s.next ∧ fd' = fd ∨ i ≠ s.next ∧ s.fds i = some fd' := by
      rw [fds] at found
      by_cases new : i = s.next
      · rw [new, Function.update_self] at found
        exact .inl ⟨new, (Option.some.inj found).symm⟩
      · rw [Function.update_of_ne new] at found
        exact .inr ⟨new, found⟩
    constructor
    case used =>
      intro fd'
      rw [opened]
      by_cases same : fd' = fd
      · rw [same, Function.update_self]
        exact iff_of_true rfl ⟨s.next, by rw [fds, Function.update_self]⟩
      · rw [Function.update_of_ne same, h.used]
        refine exists_congr fun i => ⟨fun found => ?_, fun found => ?_⟩
        · have new : i ≠ s.next := by
            rintro rfl
            rw [h.fresh s.next le_rfl] at found
            cases found
          rw [fds, Function.update_of_ne new, found]
        · obtain ⟨-, eq⟩ | ⟨-, found⟩ := old found
          · exact absurd eq same
          · exact found
    case apart =>
      intro i i' fd' found found'
      obtain ⟨new, eq⟩ | ⟨-, found⟩ := old found
      · obtain ⟨new', -⟩ | ⟨-, found'⟩ := old found'
        · rw [new, new']
        · rw [eq] at found'
          exact absurd found' (unused i')
      · obtain ⟨-, eq⟩ | ⟨-, found'⟩ := old found'
        · rw [eq] at found
          exact absurd found (unused i)
        · exact h.apart i i' fd' found found'
    case fresh =>
      intro i later
      rw [next] at later
      rw [fds, Function.update_of_ne (Nat.ne_of_gt later)]
      exact h.fresh i (Nat.le_of_lt later)
    case closes =>
      intro i
      rw [closes, fds, next, h.closes]
      by_cases new : i = s.next
      · subst new
        simp
      · rw [Function.update_of_ne new]
        refine if_congr (and_congr_left fun _ => ?_) rfl rfl
        omega
  | @close id fd found fds opened next closes =>
    have old {i fd' : Nat} : t.fds i = some fd' ↔ i ≠ id ∧ s.fds i = some fd' := by
      rw [fds]
      by_cases same : i = id
      · subst same
        simp
      · simp [same]
    constructor
    case used =>
      intro fd'
      rw [opened]
      by_cases same : fd' = fd
      · subst same
        rw [Function.update_self]
        refine iff_of_false Bool.false_ne_true ?_
        rintro ⟨i, held⟩
        obtain ⟨ne, held⟩ := old.mp held
        exact ne (h.apart i id fd' held found)
      · rw [Function.update_of_ne same, h.used]
        refine exists_congr fun i => ⟨fun held => old.mpr ⟨?_, held⟩, fun held => (old.mp held).2⟩
        rintro rfl
        rw [found] at held
        exact same (Option.some.inj held).symm
    case apart =>
      intro i i' fd' held held'
      exact h.apart i i' fd' (old.mp held).2 (old.mp held').2
    case fresh =>
      intro i later
      rw [next] at later
      by_cases same : i = id
      · rw [fds, same, Function.update_self]
      · rw [fds, Function.update_of_ne same]
        exact h.fresh i later
    case closes =>
      intro i
      rw [closes, fds, next, h.closes]
      by_cases same : i = id
      · subst same
        have early : i < s.next := by
          by_contra late
          rw [h.fresh i (Nat.le_of_not_lt late)] at found
          cases found
        simp [found, early]
      · rw [Function.update_of_ne same, if_neg same, Nat.add_zero]

/-- No descriptor of a connection that is gone stays open, none has two connections, and no
connection is closed twice. -/
theorem ledger_of_reach {listenfd : Nat} (h : Reach step (init listenfd) s) : Ledger s :=
  h.invariant (ledger_init listenfd) fun _ _ _ _ ih _ hs => ih.change (change_of_step hs)

theorem ledger_of_two : ∃ s, s.next = 3 ∧ s.opened 4 = true ∧ s.closes 1 = 1 ∧ Ledger s := by
  obtain ⟨s, hs, hp⟩ := exists_reach step (init 3)
    [.wait [⟨3, 0, ⟨true, false, false, false⟩⟩], .dispatch (.accepted 4),
      .wait [⟨4, 1, ⟨true, false, false, false⟩⟩], .dispatch .closed,
      .wait [⟨3, 0, ⟨true, false, false, false⟩⟩], .dispatch (.accepted 4)]
    (fun s => decide (s.next = 3 ∧ s.opened 4 = true ∧ s.closes 1 = 1)) (by decide)
  obtain ⟨next, used, once⟩ := of_decide_eq_true hp
  exact ⟨s, next, used, once, ledger_of_reach hs⟩

end Loop

end Leano.Epoll
