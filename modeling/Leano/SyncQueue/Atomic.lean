import Leano.SyncQueue.Order
import Leano.Lib.Atomic

universe u v

namespace Leano.SyncQueue

open Leano.Lib

structure Bounded (T : Type u) where
  content : List T
  stopped : Bool

inductive Answers {T : Type u} (maxSize : Int) (w : Bounded T) : Op T → Res T → Bounded T → Prop
  | put {x} : w.stopped = false → w.content.length < toSize maxSize →
      Answers maxSize w (.put x) .put { w with content := w.content ++ [x] }
  | take {x rest} : w.stopped = false → w.content = x :: rest →
      Answers maxSize w .take (.take (some x)) { w with content := rest }
  | takeList : w.stopped = false → w.content ≠ [] →
      Answers maxSize w .takeList (.takeList (some w.content)) { w with content := [] }
  | stop : Answers maxSize w .stop .stop { w with stopped := true }
  | putStopped {x} : w.stopped = true → Answers maxSize w (.put x) .put w
  | takeStopped : w.stopped = true → Answers maxSize w .take (.take none) w
  | takeListStopped : w.stopped = true → Answers maxSize w .takeList (.takeList none) w

def bounded (T : Type u) (maxSize : Int) : Object (Bounded T) (Op T) (Res T) where
  start := ⟨[], false⟩
  answers := Answers maxSize

variable {ι : Type v} {T : Type u}

def observe (s : State ι T) : Act ι T → Option (Interaction ι (Op T) (Res T))
  | .call t op => some (.call t op)
  | .ret t =>
    match s.threads t with
    | .returned r => some (.ret t r)
    | _ => none
  | .run _ _ => none
  | .spurious _ => none

/-- `Stop` has taken effect once `m_needStop` is set: its broadcasts are still to come. -/
def Op.At : Op T → Stage (Op T) (Res T) → Prop
  | .put x, st => st = .pending (.put x)
  | .take, st => st = .pending .take
  | .takeList, st => st = .pending .takeList
  | .stop, st => st = .pending .stop
  | .stopNotFull, st => st = .done .stop
  | .stopNotEmpty, st => st = .done .stop

structure Agrees (s : State ι T) (w : Bounded T) (st : ι → Stage (Op T) (Res T)) : Prop where
  content : w.content = s.q.queue
  stopped : w.stopped = s.q.needStop
  callers : ∀ t, (s.threads t).Stands Op.At (st t)

variable {s s' : State ι T} {a : Act ι T} {w : Bounded T} {st : ι → Stage (Op T) (Res T)}

theorem Op.at_entry {op : Op T} (entry : op.isEntry = true) : op.At (.pending op) := by
  cases op <;> first | rfl | cases entry

theorem Op.pending_of_stopped? {op : Op T} {r : Res T} {stage : Stage (Op T) (Res T)}
    (h : op.stopped? = some r) (at' : op.At stage) : stage = .pending op := by
  cases op <;> first | exact at' | cases h

theorem answers_stopped {maxSize : Int} {op : Op T} {r : Res T} (h : op.stopped? = some r)
    (stopped : w.stopped = true) : Answers maxSize w op r w := by
  cases op <;> cases h
  · exact .putStopped stopped
  · exact .takeStopped stopped
  · exact .takeListStopped stopped

variable [Fintype ι] [DecidableEq ι]

theorem Agrees.step {maxSize : Int} (size : s.q.maxSize = maxSize) (h : Agrees s w st)
    (hs : step s a = some s') :
    ∃ w' st', Moves (bounded T maxSize) w st (observe s a) w' st' ∧ Agrees s' w' st' := by
  obtain ⟨content, stopped, callers⟩ := h
  have stands {t : ι} {op : Op T} (section' : (s.threads t).section? = some op) : op.At (st t) :=
    Phase.stands_section section' (callers t)
  cases step_cases hs with
  | @call t op ht entry =>
    have idle : st t = .idle := by
      have outside := callers t
      rwa [ht] at outside
    refine ⟨w, _, .call idle, ?_, ?_, stands_update ?_ (Op.at_entry entry)⟩
    · cases op <;> exact content
    · cases op <;> exact stopped
    · cases op <;> exact callers
  | @spurious t op ht =>
    have waits := callers t
    rw [ht] at waits
    exact ⟨w, st, .still, content, stopped, stands_update_left callers waits⟩
  | @ret t r ht =>
    have returned := callers t
    rw [ht] at returned
    refine ⟨w, _, ?_, content, stopped, stands_update callers rfl⟩
    rw [observe, ht]
    exact .ret returned
  | @wait t _ op section' =>
    exact ⟨w, st, .still, content, stopped, stands_update_left callers (stands section')⟩
  | @stopped t _ op r section' answer set =>
    have pending := Op.pending_of_stopped? answer (stands section')
    have full : w.stopped = true := stopped.trans set
    refine ⟨w, _, .effect pending (answers_stopped answer full), content, stopped, ?_⟩
    exact stands_update callers rfl
  | @put t _ x th section' go room notified =>
    have room : w.content.length < toSize maxSize := by
      rw [content, ← size]
      simpa [Queue.notFull] using room
    refine ⟨_, _, .effect (stands section')
      (.put (stopped.trans go) room), ?_, stopped, ?_⟩
    · rw [content]
    · exact notified.stands (stands_update callers rfl)
  | @take t _ x rest th section' go hq notified =>
    refine ⟨_, _, .effect (stands section')
      (.take (stopped.trans go) (content.trans hq)), rfl, stopped, ?_⟩
    exact notified.stands (stands_update callers rfl)
  | @takeList t _ th section' go hq notified =>
    refine ⟨_, _, .effect (stands section')
      (.takeList (stopped.trans go) (content ▸ hq)), rfl, stopped, ?_⟩
    rw [content]
    exact notified.stands (stands_update callers rfl)
  | @stop t _ section' =>
    refine ⟨_, _, .effect (stands section') .stop, content, rfl, ?_⟩
    exact stands_update callers rfl
  | @stopNotFull t _ section' =>
    refine ⟨w, st, .still, content, stopped, ?_⟩
    exact stands_update_left (stands_notifyAll _ callers) (stands section')
  | @stopNotEmpty t _ section' =>
    refine ⟨w, st, .still, content, stopped, ?_⟩
    exact stands_update_left (stands_notifyAll _ callers) (stands section')

/-- Every history of calls and returns is one of a bounded queue whose operations take effect at
once, each between its call and its return. -/
theorem bounded_linearizable {maxSize : Int} {es : List (Interaction ι (Op T) (Res T))}
    (h : History step observe (State.init maxSize) es s) :
    Linearizable (bounded T maxSize) es := by
  have size : ∀ {s}, Reach step (State.init maxSize : State ι T) s → s.q.maxSize = maxSize :=
    reach_maxSize
  obtain ⟨w, st, linear, -⟩ := h.linearizes (R := Agrees) ⟨rfl, rfl, fun _ => rfl⟩
    fun _ _ _ _ _ reach agrees hs => agrees.step (size reach) hs
  exact ⟨w, st, linear⟩

theorem bounded_linearizable_of_two :
    Linearizable (bounded Nat 1) [Interaction.call (0 : Fin 2) .take, .call 1 (.put 7),
      .ret 1 .put, .ret 0 (.take (some 7)), .call 1 .stop, .ret 1 .stop, .call 0 .take,
      .ret 0 (.take none)] := by
  obtain ⟨es, s, hs, hp⟩ := exists_history step observe (State.init 1 : State (Fin 2) Nat)
    [.call 0 .take, .run 0 none, .call 1 (.put 7), .run 1 (some 0), .ret 1, .run 0 none, .ret 0,
      .call 1 .stop, .run 1 none, .run 1 none, .run 1 none, .ret 1, .call 0 .take, .run 0 none,
      .ret 0]
    (fun es _ => decide (es = [.call 0 .take, .call 1 (.put 7), .ret 1 .put,
      .ret 0 (.take (some 7)), .call 1 .stop, .ret 1 .stop, .call 0 .take, .ret 0 (.take none)]))
    (by decide)
  rw [← of_decide_eq_true hp]
  exact bounded_linearizable hs

end Leano.SyncQueue
