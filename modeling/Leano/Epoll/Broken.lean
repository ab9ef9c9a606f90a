import Leano.Epoll.Response

namespace Leano.Epoll

open Leano.Lib

def Io.permanent : Io → Bool
  | .error (.other _) => true
  | _ => false

def Io.failed : Io → Bool
  | .error _ => true
  | .bytes _ => false

inductive Script where
  | accept (connfd : Option Nat)
  | read (recvs : List Io) (complete : Bool)
  | send (sends : Sends)
  | nothing
  deriving DecidableEq

/-- The loop of `read_request`: any negative result ends it and the request is parsed, 0 closes the
connection. -/
def readOutcome (complete : Bool) : List Io → Option Outcome
  | [] => none
  | .error _ :: recvs =>
    if recvs = [] then some (if complete = true then .complete else .incomplete) else none
  | .bytes 0 :: recvs => if recvs = [] then some .closed else none
  | .bytes (_ + 1) :: recvs => readOutcome complete recvs

namespace Script

def outcome : Script → Option Outcome
  | .accept none => some .acceptFailed
  | .accept (some connfd) => some (.accepted connfd)
  | .read recvs complete => readOutcome complete recvs
  | .send r => some (if r.header.failed then .sendFailed else .sent)
  | .nothing => some .nothing

def breaks : Handler → Script → Bool
  | .readRequest, .read recvs _ => recvs.any Io.permanent
  | .sendResponse, .send r => r.header.permanent
  | _, _ => false

def breaksLate : Handler → Script → Bool
  | .sendResponse, .send r => !r.header.failed && r.body.permanent
  | _, _ => false

def parses : Script → Bool
  | .read recvs _ => recvs.any Io.failed
  | _ => false

end Script

inductive IoAct where
  | wait (reports : List Report)
  | dispatch (script : Script)
  deriving DecidableEq

namespace Loop

def ioStep (s : Loop) : IoAct → Option Loop
  | .wait reports => s.step (.wait reports)
  | .dispatch script => script.outcome.bind fun outcome => s.step (.dispatch outcome)

def called (s : Loop) : Option (Nat × Handler) :=
  match s.batch with
  | [] => none
  | r :: _ =>
    (s.conns r.conn).bind fun c =>
      (if r.events.epollin then c.readHandler
        else if r.events.epollout then c.writeHandler
        else none).map fun h => (r.conn, h)

/-- After a permanent error of one of its calls a handler has unregistered and freed the
connection, and has not gone on with the request. -/
def Released (s : Loop) (a : IoAct) (t : Loop) : Prop :=
  ∀ id h script, s.called = some (id, h) → a = .dispatch script →
    (script.breaks h || script.breaksLate h) = true →
    t.conns id = none ∧ (∀ fd mask, t.epoll fd ≠ some (id, mask)) ∧ script.parses = false

def Unbroken (s : Loop) (a : IoAct) (_ : Loop) : Prop :=
  ∀ id h script, s.called = some (id, h) → a = .dispatch script → script.breaks h = false

variable {s t : Loop} {id : Nat} {h : Handler} {outcome : Outcome}

theorem handle_of_called (hc : s.called = some (id, h)) (hs : s.step (.dispatch outcome) = some t) :
    ∃ (u : Loop) (c : Conn), u.conns = s.conns ∧ s.conns id = some c ∧
      u.handle id c h outcome = some t := by
  unfold called at hc
  split at hc
  case h_1 => cases hc
  case h_2 r rest batch =>
    obtain ⟨c, conn, hc⟩ := Option.bind_eq_some_iff.mp hc
    obtain ⟨h', chosen, same⟩ := Option.map_eq_some_iff.mp hc
    cases same
    unfold step at hs
    split at hs
    case isTrue => cases hs
    case isFalse =>
      simp only [batch, dispatch, conn] at hs
      let u : Loop := ({ s with batch := rest }.note (.touch r.conn)).note (.call r.conn (some h))
      split at chosen
      case isTrue readable =>
        rw [if_pos readable, chosen] at hs
        exact ⟨u, c, rfl, conn, hs⟩
      case isFalse silent =>
        split at chosen
        case isTrue writable =>
          rw [if_neg silent, if_pos writable, chosen] at hs
          exact ⟨u, c, rfl, conn, hs⟩
        case isFalse => cases chosen

theorem step_of_ioStep {a : IoAct} (hs : s.ioStep a = some t) : ∃ b, s.step b = some t := by
  cases a with
  | wait reports => exact ⟨_, hs⟩
  | dispatch script =>
    obtain ⟨outcome, -, hs⟩ := Option.bind_eq_some_iff.mp hs
    exact ⟨_, hs⟩

theorem inv_of_ioReach {listenfd : Nat} (h : Reach ioStep (init listenfd) s) : s.Inv :=
  inv_of_reach (h.map (fun s => s) fun _ _ _ _ hs => .inr (step_of_ioStep hs))

theorem failed_of_permanent {io : Io} (h : io.permanent = true) : io.failed = true := by
  cases io with
  | error => rfl
  | bytes => cases h

theorem parses_of_breaks {script : Script} (broken : script.breaks .readRequest = true) :
    script.parses = true := by
  cases script with
  | read recvs complete =>
    obtain ⟨io, mem, permanent⟩ := List.any_eq_true.mp broken
    exact List.any_eq_true.mpr ⟨io, mem, failed_of_permanent permanent⟩
  | accept | send | nothing => cases broken

theorem handle_send {c : Conn} {r : Sends} (o : (Script.send r).outcome = some outcome)
    (ht : s.handle id c .sendResponse outcome = some t) :
    r.header.failed = true ∧ t = s ∨
      r.header.failed = false ∧ t = (s.epollDelEvent c).closeConn id c := by
  cases failed : r.header.failed with
  | true =>
    rw [Script.outcome, failed] at o
    cases o
    cases ht
    exact .inl ⟨rfl, rfl⟩
  | false =>
    rw [Script.outcome, failed] at o
    cases o
    cases ht
    exact .inr ⟨rfl, rfl⟩

/-- What a step from a reached state does about a connection that breaks. -/
theorem released_iff_unbroken {a : IoAct} (hi : s.Inv) (hs : s.ioStep a = some t) :
    Released s a t ↔ Unbroken s a t := by
  refine forall₃_congr fun id h script => imp_congr_right fun hc => imp_congr_right ?_
  rintro rfl
  obtain ⟨outcome, o, hs⟩ := Option.bind_eq_some_iff.mp hs
  obtain ⟨u, c, conns, conn, ht⟩ := handle_of_called hc hs
  cases h with
  | readRequest =>
    cases broken : script.breaks .readRequest with
    | true =>
      refine iff_of_false (fun released => ?_) (by decide)
      cases (parses_of_breaks broken).symm.trans (released rfl).2.2
    | false =>
      refine iff_of_true (fun late => ?_) rfl
      cases script <;> cases late
  | sendResponse =>
    cases script with
    | send r =>
      cases broken : r.header.permanent with
      | true =>
        refine iff_of_false (fun released => ?_) ?_
        · obtain ⟨-, rfl⟩ | ⟨taken, -⟩ := handle_send o ht
          · have gone := (released (by rw [Script.breaks, broken, Bool.true_or])).1
            cases (conns ▸ conn).symm.trans gone
          · cases (failed_of_permanent broken).symm.trans taken
        · rw [Script.breaks, broken]
          exact Bool.noConfusion
      | false =>
        refine iff_of_true (fun late => ?_) broken
        rw [Script.breaks, broken, Bool.false_or, Script.breaksLate, Bool.and_eq_true_iff] at late
        obtain ⟨refused, -⟩ | ⟨-, rfl⟩ := handle_send o ht
        · rw [refused] at late
          cases late.1
        · have freed : ((u.epollDelEvent c).closeConn id c).conns id = none :=
            Function.update_self _ _ _
          refine ⟨freed, fun fd mask registered => ?_, rfl⟩
          obtain ⟨c', live, -⟩ := (hi.step hs).registered fd id mask registered
          cases freed.symm.trans live
    | accept | read | nothing =>
      refine iff_of_true (fun late => ?_) rfl
      cases late
  | webAccept | emptyEventHandler =>
    refine iff_of_true (fun late => ?_) ?_
    · cases script <;> cases late
    · cases script <;> rfl

/-- In any run of the loop, each connection that breaks is released by the handler that finds out,
exactly if only a second `send` finds out. -/
theorem released_iff (listenfd : Nat) (acts : List IoAct) :
    EveryStep ioStep Released (init listenfd) acts ↔
      EveryStep ioStep Unbroken (init listenfd) acts :=
  everyStep_congr fun _ _ _ hu hs => released_iff_unbroken (inv_of_ioReach hu) hs

def resetRun : List IoAct :=
  [.wait [⟨3, 0, ⟨true, false, false, false⟩⟩], .dispatch (.accept (some 4)),
    .wait [⟨4, 1, ⟨true, false, true, true⟩⟩], .dispatch (.read [.error (.other 104)] false)]

theorem reset_not_released :
    (∃ t, run ioStep (init 3) resetRun = some t ∧
      t.opened 4 = true ∧ (t.conns 1).isSome = true ∧ (t.epoll 4).isSome = true) ∧
      ¬ EveryStep ioStep Released (init 3) resetRun := by
  refine ⟨⟨_, rfl, rfl, rfl, rfl⟩, fun all => ?_⟩
  obtain ⟨u, hu⟩ : ∃ u, run ioStep (init 3) (resetRun.take 3) = some u := ⟨_, rfl⟩
  obtain ⟨t, ht⟩ : ∃ t, u.ioStep (.dispatch (.read [.error (.other 104)] false)) = some t := by
    cases hu
    exact ⟨_, rfl⟩
  have called : u.called = some (1, .readRequest) := by
    cases hu
    decide
  have released := all (resetRun.take 3) _ [] u t rfl hu ht 1 .readRequest _ called rfl rfl
  cases released.2.2

end Loop

end Leano.Epoll
