import Leano.Lib.Run
import Leano.Lib.Monitor

/-! `SyncQueue<T>` of `include/SyncQueue.hpp`, called by any number of threads. -/

universe u v

namespace Leano.SyncQueue

open Leano.Lib

/-- An `int` compared with a `size_t` is converted to `size_t` first. -/
def toSize (n : Int) : Nat := (if 0 ≤ n then n else n + 2 ^ 64).toNat

@[simp] theorem toSize_of_nonneg {n : Int} (h : 0 ≤ n) : toSize n = n.toNat := by
  simp [toSize, h]

structure Queue (T : Type u) where
  queue : List T
  maxSize : Int
  needStop : Bool
  deriving DecidableEq

namespace Queue

variable {T : Type u}

def make (maxSize : Int) : Queue T := ⟨[], maxSize, false⟩

def empty (q : Queue T) : Bool := q.queue.isEmpty

def full (q : Queue T) : Bool := q.queue.length == toSize q.maxSize

def size (q : Queue T) : Nat := q.queue.length

def notFull (q : Queue T) : Bool := !decide (q.queue.length ≥ toSize q.maxSize)

def notEmpty (q : Queue T) : Bool := !q.queue.isEmpty

def mayAdd (q : Queue T) : Bool := q.needStop || q.notFull

def mayTake (q : Queue T) : Bool := q.needStop || q.notEmpty

end Queue

/-- The operations of the queue. `Stop` broadcasts after it has left its critical section, so its
two broadcasts are sections of their own. -/
inductive Op (T : Type u) where
  | put (x : T)
  | take
  | takeList
  | stop
  | stopNotFull
  | stopNotEmpty
  deriving DecidableEq

namespace Op

variable {T : Type u}

def isEntry : Op T → Bool
  | .stopNotFull => false
  | .stopNotEmpty => false
  | _ => true

def onNotFull : Op T → Bool
  | .put _ => true
  | _ => false

def onNotEmpty : Op T → Bool
  | .take => true
  | .takeList => true
  | _ => false

end Op

inductive Res (T : Type u) where
  | put
  | take (t : Option T)
  | takeList (list : Option (List T))
  | stop
  deriving DecidableEq

abbrev Threads (ι : Type v) (T : Type u) := ι → Phase (Op T) (Res T)

/-- The queue, its callers, and three histories: the elements offered to `Put`, the elements
enqueued, and the elements taken out with the thread that took them. -/
structure State (ι : Type v) (T : Type u) where
  q : Queue T
  threads : Threads ι T
  offered : List T
  enqueued : List T
  taken : List (ι × T)

inductive Act (ι : Type v) (T : Type u) where
  | call (t : ι) (op : Op T)
  | run (t : ι) (wake : Option ι)
  | spurious (t : ι)
  | ret (t : ι)
  deriving DecidableEq

def Act.isInner {ι : Type v} {T : Type u} : Act ι T → Bool
  | .run _ _ => true
  | .spurious _ => true
  | _ => false

namespace State

variable {ι : Type v} {T : Type u}

def init (maxSize : Int) : State ι T := ⟨.make maxSize, fun _ => .idle, [], [], []⟩

variable [DecidableEq ι]

def setThread (s : State ι T) (t : ι) (ph : Phase (Op T) (Res T)) : State ι T :=
  { s with threads := Function.update s.threads t ph }

def offer (s : State ι T) : Op T → State ι T
  | .put x => { s with offered := s.offered ++ [x] }
  | _ => s

variable [Fintype ι]

def notify (s : State ι T) (on : Op T → Bool) (wake : Option ι) : Option (State ι T) :=
  (notifyOne on s.threads wake).map fun th => { s with threads := th }

def add (s : State ι T) (t : ι) (x : T) (wake : Option ι) : Option (State ι T) :=
  if s.q.mayAdd then
    if s.q.needStop then some (s.setThread t (.returned .put))
    else
      ({ s with
          q := { s.q with queue := s.q.queue ++ [x] }
          enqueued := s.enqueued ++ [x] }.setThread t (.returned .put)).notify Op.onNotEmpty wake
  else some (s.setThread t (.blocked (.put x)))

def take (s : State ι T) (t : ι) (wake : Option ι) : Option (State ι T) :=
  if s.q.mayTake then
    if s.q.needStop then some (s.setThread t (.returned (.take none)))
    else
      match s.q.queue with
      -- `front` of an empty list; the predicate excludes it
      | [] => none
      | x :: rest =>
        ({ s with
            q := { s.q with queue := rest }
            taken := s.taken ++ [(t, x)] }.setThread t
          (.returned (.take (some x)))).notify Op.onNotFull wake
  else some (s.setThread t (.blocked .take))

def takeList (s : State ι T) (t : ι) (wake : Option ι) : Option (State ι T) :=
  if s.q.mayTake then
    if s.q.needStop then some (s.setThread t (.returned (.takeList none)))
    else
      ({ s with
          q := { s.q with queue := [] }
          taken := s.taken ++ s.q.queue.map fun x => (t, x) }.setThread t
        (.returned (.takeList (some s.q.queue)))).notify Op.onNotFull wake
  else some (s.setThread t (.blocked .takeList))

def critical (s : State ι T) (t : ι) (wake : Option ι) : Op T → Option (State ι T)
  | .put x => s.add t x wake
  | .take => s.take t wake
  | .takeList => s.takeList t wake
  | .stop => some ({ s with q := { s.q with needStop := true } }.setThread t (.ready .stopNotFull))
  | .stopNotFull =>
    some ({ s with threads := notifyAll Op.onNotFull s.threads }.setThread t (.ready .stopNotEmpty))
  | .stopNotEmpty =>
    some ({ s with threads := notifyAll Op.onNotEmpty s.threads }.setThread t (.returned .stop))

end State

variable {ι : Type v} {T : Type u} [Fintype ι] [DecidableEq ι]

def step (s : State ι T) : Act ι T → Option (State ι T)
  | .call t op =>
    match s.threads t with
    | .idle => if op.isEntry then some ((s.offer op).setThread t (.ready op)) else none
    | _ => none
  | .run t wake => (s.threads t).section?.bind (s.critical t wake)
  | .spurious t =>
    match s.threads t with
    | .blocked op => some (s.setThread t (.woken op))
    | _ => none
  | .ret t =>
    match s.threads t with
    | .returned _ => some (s.setThread t .idle)
    | _ => none

def Op.blocks (q : Queue T) : Op T → Bool
  | .put _ => !q.mayAdd
  | .take => !q.mayTake
  | .takeList => !q.mayTake
  | _ => false

def Op.stopped? : Op T → Option (Res T)
  | .put _ => some .put
  | .take => some (.take none)
  | .takeList => some (.takeList none)
  | _ => none

inductive Step (s : State ι T) : Act ι T → State ι T → Prop
  | call {t op} : s.threads t = .idle → op.isEntry = true →
      Step s (.call t op) ((s.offer op).setThread t (.ready op))
  | spurious {t op} : s.threads t = .blocked op → Step s (.spurious t) (s.setThread t (.woken op))
  | ret {t r} : s.threads t = .returned r → Step s (.ret t) (s.setThread t .idle)
  | wait {t w op} : (s.threads t).section? = some op → op.blocks s.q = true →
      Step s (.run t w) (s.setThread t (.blocked op))
  | stopped {t w op r} : (s.threads t).section? = some op → op.stopped? = some r →
      s.q.needStop = true → Step s (.run t w) (s.setThread t (.returned r))
  | put {t w x th} : (s.threads t).section? = some (.put x) → s.q.needStop = false →
      s.q.notFull = true →
      Notified Op.onNotEmpty (Function.update s.threads t (.returned .put)) th →
      Step s (.run t w) { s with
        q := { s.q with queue := s.q.queue ++ [x] }
        enqueued := s.enqueued ++ [x]
        threads := th }
  | take {t w x rest th} : (s.threads t).section? = some .take → s.q.needStop = false →
      s.q.queue = x :: rest →
      Notified Op.onNotFull (Function.update s.threads t (.returned (.take (some x)))) th →
      Step s (.run t w) { s with
        q := { s.q with queue := rest }
        taken := s.taken ++ [(t, x)]
        threads := th }
  | takeList {t w th} : (s.threads t).section? = some .takeList → s.q.needStop = false →
      s.q.queue ≠ [] →
      Notified Op.onNotFull
        (Function.update s.threads t (.returned (.takeList (some s.q.queue)))) th →
      Step s (.run t w) { s with
        q := { s.q with queue := [] }
        taken := s.taken ++ s.q.queue.map fun x => (t, x)
        threads := th }
  | stop {t w} : (s.threads t).section? = some .stop →
      Step s (.run t w)
        ({ s with q := { s.q with needStop := true } }.setThread t (.ready .stopNotFull))
  | stopNotFull {t w} : (s.threads t).section? = some .stopNotFull →
      Step s (.run t w) ({ s with threads := notifyAll Op.onNotFull s.threads }.setThread t
        (.ready .stopNotEmpty))
  | stopNotEmpty {t w} : (s.threads t).section? = some .stopNotEmpty →
      Step s (.run t w) ({ s with threads := notifyAll Op.onNotEmpty s.threads }.setThread t
        (.returned .stop))

namespace State

variable {s s' : State ι T} {t : ι} {w : Option ι}

theorem notified_of_notify {on : Op T → Bool} (h : s.notify on w = some s') :
    ∃ th, Notified on s.threads th ∧ s' = { s with threads := th } := by
  obtain ⟨th, hth, rfl⟩ := Option.map_eq_some_iff.mp h
  exact ⟨th, notified_of_notifyOne hth, rfl⟩

theorem step_of_add {x : T} (hs : (s.threads t).section? = some (.put x))
    (h : s.add t x w = some s') : Step s (.run t w) s' := by
  simp only [add] at h
  split at h
  case isTrue may =>
    split at h
    case isTrue stop => cases h; exact .stopped hs rfl stop
    case isFalse go =>
      have go : s.q.needStop = false := by simpa using go
      obtain ⟨th, hth, rfl⟩ := notified_of_notify h
      exact .put hs go (by simpa [Queue.mayAdd, go] using may) hth
  case isFalse may => cases h; exact .wait hs (by simpa [Op.blocks] using may)

theorem step_of_take (hs : (s.threads t).section? = some .take)
    (h : s.take t w = some s') : Step s (.run t w) s' := by
  simp only [take] at h
  split at h
  case isTrue may =>
    split at h
    case isTrue stop => cases h; exact .stopped hs rfl stop
    case isFalse go =>
      have go : s.q.needStop = false := by simpa using go
      split at h
      case h_1 => cases h
      case h_2 x rest hq =>
        obtain ⟨th, hth, rfl⟩ := notified_of_notify h
        exact .take hs go hq hth
  case isFalse may => cases h; exact .wait hs (by simpa [Op.blocks] using may)

theorem step_of_takeList (hs : (s.threads t).section? = some .takeList)
    (h : s.takeList t w = some s') : Step s (.run t w) s' := by
  simp only [takeList] at h
  split at h
  case isTrue may =>
    split at h
    case isTrue stop => cases h; exact .stopped hs rfl stop
    case isFalse go =>
      have go : s.q.needStop = false := by simpa using go
      obtain ⟨th, hth, rfl⟩ := notified_of_notify h
      exact .takeList hs go (by simpa [Queue.mayTake, Queue.notEmpty, go] using may) hth
  case isFalse may => cases h; exact .wait hs (by simpa [Op.blocks] using may)

end State

theorem step_cases {s s' : State ι T} {a : Act ι T} (h : step s a = some s') : Step s a s' := by
  cases a with
  | call t op =>
    simp only [step] at h
    split at h
    case h_1 ht =>
      split at h
      case isTrue hop => cases h; exact .call ht hop
      case isFalse => cases h
    case h_2 => cases h
  | run t w =>
    obtain ⟨op, hop, h⟩ := Option.bind_eq_some_iff.mp h
    cases op with
    | put x => exact State.step_of_add hop h
    | take => exact State.step_of_take hop h
    | takeList => exact State.step_of_takeList hop h
    | stop => cases h; exact .stop hop
    | stopNotFull => cases h; exact .stopNotFull hop
    | stopNotEmpty => cases h; exact .stopNotEmpty hop
  | spurious t =>
    simp only [step] at h
    split at h
    case h_1 op ht => cases h; exact .spurious ht
    case h_2 => cases h
  | ret t =>
    simp only [step] at h
    split at h
    case h_1 r ht => cases h; exact .ret ht
    case h_2 => cases h

end Leano.SyncQueue
