import Leano.ConditionQueue.Defs
import Leano.Lib.Atomic

universe u v

namespace Leano.ConditionQueue

open Leano.Lib

structure Stock (P : Type u) where
  content : List (Option P)
  used : UInt32

/-- `wait_pop` takes place in a queue that is not empty. `wait_timeout_pop` may come back with
nothing from any queue, `try_pop` from an empty one. -/
inductive Answers {P : Type u} (w : Stock P) : Op P → Res P → Stock P → Prop
  | push {data} : Answers w (.push data) .unit { w with content := w.content ++ [data] }
  | pop {op ptr rest} : op = .tryPop ∨ op.waits = true → w.content = ptr :: rest →
      Answers w op (.pop ptr true) ⟨rest, w.used + 1⟩
  | nothing : w.content = [] → Answers w .tryPop (.pop none false) w
  | timedOut {timeout} : Answers w (.waitTimeoutPop timeout) (.pop none false) w
  | cleanQueue : Answers w .cleanQueue .unit ⟨[], 0⟩
  | cleanQueueWith : Answers w .cleanQueueWith .unit ⟨[], 0⟩
  | size : Answers w .size (.number (UInt32.ofNat (w.used.toNat + w.content.length))) w
  | decrease : 0 < w.used →
      Answers w .decrease (.number (w.used - 1)) { w with used := w.used - 1 }
  | decreaseNone : ¬ 0 < w.used → Answers w .decrease (.number w.used) w
  | increase : Answers w .increase (.number (w.used + 1)) { w with used := w.used + 1 }
  | empty : Answers w .empty (.empty w.content.isEmpty) w

def counted (P : Type u) : Object (Stock P) (Op P) (Res P) where
  start := ⟨[], 0⟩
  answers := Answers

variable {ι : Type v} {P : Type u}

def observe (s : State ι P) : Act ι P → Option (Interaction ι (Op P) (Res P))
  | .call t op => some (.call t op)
  | .ret t =>
    match s.threads t with
    | .returned r => some (.ret t r)
    | _ => none
  | .run _ _ => none
  | .spurious _ => none
  | .timeout _ => none

/-- A `push` has taken effect before it signals; the second `CleanQueue` only when it holds the
mutex, and a `wait_timeout_pop` that has timed out not yet. -/
def Op.At : Op P → Stage (Op P) (Res P) → Prop
  | .signal, st => st = .done .unit
  | .timedOut, st => ∃ timeout, st = .pending (.waitTimeoutPop timeout)
  | .cleanLocked, st => st = .pending .cleanQueueWith
  | op, st => st = .pending op

structure Agrees (s : State ι P) (w : Stock P) (st : ι → Stage (Op P) (Res P)) : Prop where
  content : w.content = s.q.dataqueue
  used : w.used = s.q.used
  callers : ∀ t, (s.threads t).Stands Op.At (st t)

variable {s s' : State ι P} {a : Act ι P} {w : Stock P} {st : ι → Stage (Op P) (Res P)} {t : ι}

theorem Op.at_entry {op : Op P} (entry : op.isEntry = true) : op.At (.pending op) := by
  cases op <;> first | rfl | cases entry

namespace Agrees

variable [DecidableEq ι] (h : Agrees s w st)
include h

theorem pop {op : Op P} {ptr : Option P} {rest : List (Option P)} {waiters : UInt32}
    (pending : st t = .pending op) (pops : op = .tryPop ∨ op.waits = true)
    (hq : s.q.dataqueue = ptr :: rest) : ∃ w' st', Moves (counted P) w st none w' st' ∧
      Agrees (s.popFront t ptr rest waiters) w' st' := by
  refine ⟨_, _, .effect pending (.pop pops (h.content.trans hq)), rfl, ?_, ?_⟩
  · change w.used + 1 = s.q.used + 1
    rw [h.used]
  · exact stands_update h.callers rfl

theorem wait {op : Op P} {waiters : UInt32} (at' : op.At (st t)) :
    Agrees ({ s with q := { s.q with waitThreadNum := waiters } }.setThread t (.blocked op)) w st :=
  ⟨h.content, h.used, stands_update_left h.callers at'⟩

theorem clean {op : Op P} (pending : st t = .pending op)
    (answers : Answers w op .unit ⟨[], 0⟩) : ∃ w' st', Moves (counted P) w st none w' st' ∧
      Agrees (s.clean t) w' st' :=
  ⟨_, _, .effect pending answers, rfl, rfl, stands_update h.callers rfl⟩

theorem read {op : Op P} {r : Res P} (pending : st t = .pending op) (answers : Answers w op r w) :
    ∃ w' st', Moves (counted P) w st none w' st' ∧
      Agrees (s.setThread t (.returned r)) w' st' :=
  ⟨_, _, .effect pending answers, h.content, h.used, stands_update h.callers rfl⟩

theorem count {op : Op P} {used : UInt32} (pending : st t = .pending op)
    (answers : Answers w op (.number used) { w with used := used }) :
    ∃ w' st', Moves (counted P) w st none w' st' ∧
      Agrees ({ s with q := { s.q with used := used } }.setThread t (.returned (.number used)))
        w' st' :=
  ⟨_, _, .effect pending answers, h.content, rfl, stands_update h.callers rfl⟩

variable [Fintype ι]

theorem critical {wake : Option ι} {op : Op P} (section' : (s.threads t).section? = some op)
    (hs : s.critical t wake op = some s') :
    ∃ w' st', Moves (counted P) w st none w' st' ∧ Agrees s' w' st' := by
  have stands : op.At (st t) := Phase.stands_section section' (h.callers t)
  cases op with
  | push data =>
    cases hs
    refine ⟨_, _, .effect stands .push, ?_, h.used, stands_update h.callers rfl⟩
    exact congrArg (· ++ [data]) h.content
  | signal =>
    obtain ⟨th, notified, rfl⟩ := Option.map_eq_some_iff.mp hs
    refine ⟨w, st, .still, h.content, h.used, ?_⟩
    exact stands_update_left ((notified_of_notifyOne notified).stands h.callers) stands
  | tryPop =>
    cases hs
    unfold State.tryPop
    split
    case h_1 hq => exact h.read stands (.nothing (h.content.trans hq))
    case h_2 hq => exact h.pop stands (.inl rfl) hq
  | waitPop =>
    cases hs
    unfold State.waitPop
    split
    case h_1 => exact ⟨w, st, .still, h.wait stands⟩
    case h_2 hq => exact h.pop stands (.inr rfl) hq
  | waitTimeoutPop timeout =>
    cases hs
    unfold State.waitTimeoutPop
    split
    case h_1 => exact ⟨w, st, .still, h.wait stands⟩
    case h_2 hq => exact h.pop stands (.inr rfl) hq
  | timedOut =>
    cases hs
    obtain ⟨timeout, pending⟩ := stands
    exact h.read pending .timedOut
  | cleanQueue => cases hs; exact h.clean stands .cleanQueue
  | cleanQueueWith =>
    cases hs
    refine ⟨w, st, .still, h.content, h.used, ?_⟩
    exact stands_update_left (stands_notifyAll _ h.callers) stands
  | cleanLocked => cases hs; exact h.clean stands .cleanQueueWith
  | size =>
    cases hs
    refine h.read stands ?_
    rw [State.size, ← h.content, ← h.used]
    exact .size
  | decrease =>
    cases hs
    unfold State.decrease
    rw [← h.used]
    split
    case isTrue pos => exact h.count stands (.decrease pos)
    case isFalse zero => exact h.count stands (.decreaseNone zero)
  | increase =>
    cases hs
    unfold State.increase
    rw [← h.used]
    exact h.count stands .increase
  | empty =>
    cases hs
    refine h.read stands ?_
    rw [← h.content]
    exact .empty

theorem step (hs : step s a = some s') :
    ∃ w' st', Moves (counted P) w st (observe s a) w' st' ∧ Agrees s' w' st' := by
  cases a with
  | call t op =>
    simp only [ConditionQueue.step] at hs
    split at hs
    case h_1 ht =>
      split at hs
      case isTrue entry =>
        cases hs
        have idle : st t = .idle := by
          have outside := h.callers t
          rwa [ht] at outside
        refine ⟨w, _, .call idle, h.content, h.used, ?_⟩
        exact stands_update h.callers (Op.at_entry entry)
      case isFalse => cases hs
    case h_2 => cases hs
  | run t wake =>
    obtain ⟨op, section', hs⟩ := Option.bind_eq_some_iff.mp hs
    exact h.critical section' hs
  | spurious t =>
    simp only [ConditionQueue.step] at hs
    split at hs
    case h_1 op ht =>
      cases hs
      have waits := h.callers t
      rw [ht] at waits
      exact ⟨w, st, .still, h.content, h.used, stands_update_left h.callers waits⟩
    case h_2 => cases hs
  | timeout t =>
    have timedOut {timeout : Nat} (pending : st t = .pending (.waitTimeoutPop timeout)) :
        Agrees (s.setThread t (.woken .timedOut)) w st :=
      ⟨h.content, h.used, stands_update_left h.callers ⟨timeout, pending⟩⟩
    have waits := h.callers t
    simp only [ConditionQueue.step] at hs
    split at hs
    case h_1 ht =>
      cases hs
      rw [ht] at waits
      exact ⟨w, st, .still, timedOut waits⟩
    case h_2 ht =>
      cases hs
      rw [ht] at waits
      exact ⟨w, st, .still, timedOut waits⟩
    case h_3 => cases hs
  | ret t =>
    simp only [ConditionQueue.step] at hs
    split at hs
    case h_1 r ht =>
      cases hs
      have returned := h.callers t
      rw [ht] at returned
      rw [observe, ht]
      refine ⟨w, _, .ret returned, ?_⟩
      have idle (u : ι) : (Function.update s.threads t .idle u).Stands Op.At
          (Function.update st t .idle u) := by
        have own : Phase.Stands Op.At (.idle : Phase (Op P) (Res P)) .idle := rfl
        exact stands_update h.callers own u
      cases r with
      | pop ptr removed => cases removed <;> exact ⟨h.content, h.used, idle⟩
      | unit | number | empty => exact ⟨h.content, h.used, idle⟩
    case h_2 => cases hs

end Agrees

variable [DecidableEq ι] [Fintype ι]

/-- Every history of calls and returns is one of a queue whose operations take effect at once, each
between its call and its return: waiting, signalling and timing out do not show. -/
theorem counted_linearizable {es : List (Interaction ι (Op P) (Res P))}
    (h : History step observe (State.init : State ι P) es s) : Linearizable (counted P) es := by
  obtain ⟨w, st, linear, -⟩ := h.linearizes (R := Agrees) ⟨rfl, rfl, fun _ => rfl⟩
    fun _ _ _ _ _ _ agrees hs => agrees.step hs
  exact ⟨w, st, linear⟩

theorem counted_linearizable_of_two :
    Linearizable (counted Nat) [Interaction.call (0 : Fin 2) .waitPop, .call 1 (.push (some 7)),
      .ret 0 (.pop (some 7) true), .ret 1 .unit, .call 0 (.waitTimeoutPop 3),
      .call 1 (.push none), .ret 1 .unit, .ret 0 (.pop none false), .call 1 .size,
      .ret 1 (.number 2)] := by
  obtain ⟨es, s, hs, hp⟩ := exists_history step observe (State.init : State (Fin 2) Nat)
    [.call 0 .waitPop, .run 0 none, .call 1 (.push (some 7)), .run 1 none, .run 1 (some 0),
      .run 0 none, .ret 0, .ret 1, .call 0 (.waitTimeoutPop 3), .run 0 none, .timeout 0,
      .call 1 (.push none), .run 1 none, .run 1 none, .ret 1, .run 0 none, .ret 0, .call 1 .size,
      .run 1 none, .ret 1]
    (fun es _ => decide (es = [.call 0 .waitPop, .call 1 (.push (some 7)),
      .ret 0 (.pop (some 7) true), .ret 1 .unit, .call 0 (.waitTimeoutPop 3), .call 1 (.push none),
      .ret 1 .unit, .ret 0 (.pop none false), .call 1 .size, .ret 1 (.number 2)])) (by decide)
  rw [← of_decide_eq_true hp]
  exact counted_linearizable hs

end Leano.ConditionQueue
