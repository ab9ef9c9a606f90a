import Leano.Lib.Run
import Mathlib.Data.Fintype.Basic
import Mathlib.Data.Fintype.Sum
import Mathlib.Logic.Function.Basic

/-! The pthread `ThreadPool` of `src/thread_pool.cpp`: one call of `start(n)` with the `n` workers
it creates, and clients that call `pool_add_worker` and `pool_destory`. `start` and the writes of
`shutdown` do not take `queue_lock`, so each access to shared memory is a step. `M` are the `CMsg`
objects (not their addresses), `debug` tells the builds with `DEBUG` from those without. -/

universe u v

namespace Leano.PthreadPool

open Leano.Lib

inductive WorkerPc (M : Type u) where
  | unborn
  | lock
  | test
  | wait
  | blocked
  | woken
  | check
  | unlockExit
  | guard
  | front
  | unlock (qMsg : M)
  | process (qMsg : M)
  | delete (qMsg : M)
  | relock
  | exited
  | fault
  deriving DecidableEq

inductive ClientPc (M : Type u) where
  | idle
  | lock (newMsg : M)
  | push (newMsg : M)
  | load
  | store (cur : Int)
  | unlock
  | signal
  | destory
  | shut
  | broadcast
  | next (i : Nat)
  | join (i : Nat)
  | joined
  deriving DecidableEq

inductive StartPc where
  | fresh
  | reset
  | clear
  | create (i : Nat)
  | returned
  deriving DecidableEq

namespace WorkerPc

variable {M : Type u}

def inside : WorkerPc M → Bool
  | .test => true
  | .wait => true
  | .check => true
  | .unlockExit => true
  | .guard => true
  | .front => true
  | .unlock _ => true
  | .relock => true
  | .fault => true
  | _ => false

def isBlocked : WorkerPc M → Bool
  | .blocked => true
  | _ => false

def wake : WorkerPc M → WorkerPc M
  | .blocked => .woken
  | pc => pc

end WorkerPc

def ClientPc.inside {M : Type u} : ClientPc M → Bool
  | .push _ => true
  | .load => true
  | .store _ => true
  | .unlock => true
  | _ => false

/-- The `CPool` and its threads, with histories of the objects made, pushed, popped, executed and
deleted. -/
structure Pool (n : Nat) (C : Type v) (M : Type u) where
  queueB : List M
  shutdown : Bool
  maxThreadNum : Nat
  curQueueSize : Int
  queueLock : Option (Fin n ⊕ C)
  start : StartPc
  worker : Fin n → WorkerPc M
  client : C → ClientPc M
  made : List M
  submitted : List M
  dequeued : List (Fin n × M)
  executed : List (Fin n × M)
  deleted : List (Fin n × M)

inductive Act (n : Nat) (C : Type v) (M : Type u) where
  | start
  | add (c : C) (newMsg : M)
  | destory (c : C)
  | client (c : C) (wake : Option (Fin n))
  | work (w : Fin n)
  | spurious (w : Fin n)
  deriving DecidableEq

namespace Pool

variable {n : Nat} {C : Type v} {M : Type u}

def init : Pool n C M where
  queueB := []
  shutdown := false
  maxThreadNum := 0
  curQueueSize := 0
  queueLock := none
  start := .fresh
  worker := fun _ => .unborn
  client := fun _ => .idle
  made := []
  submitted := []
  dequeued := []
  executed := []
  deleted := []

def setWorker (s : Pool n C M) (w : Fin n) (pc : WorkerPc M) : Pool n C M :=
  { s with worker := Function.update s.worker w pc }

def broadcast (s : Pool n C M) : Pool n C M :=
  { s with worker := fun w => (s.worker w).wake }

def signal (s : Pool n C M) : Option (Fin n) → Option (Pool n C M)
  | some w =>
    match s.worker w with
    | .blocked => some (s.setWorker w .woken)
    | _ => none
  | none => if ∀ w, (s.worker w).isBlocked = false then some s else none

def startStep (s : Pool n C M) : Option (Pool n C M) :=
  match s.start with
  | .fresh => some { s with maxThreadNum := n, start := .reset }
  | .reset => some { s with curQueueSize := 0, start := .clear }
  | .clear => some { s with shutdown := false, start := .create 0 }
  | .create i =>
    if h : i < n then some ({ s with start := .create (i + 1) }.setWorker ⟨i, h⟩ .lock)
    else some { s with start := .returned }
  | .returned => none

def threadRoutine (debug : Bool) (s : Pool n C M) (w : Fin n) : Option (Pool n C M) :=
  match s.worker w with
  | .unborn => none
  | .lock =>
    if s.queueLock = none then some ({ s with queueLock := some (.inl w) }.setWorker w .test)
    else none
  | .test =>
    if s.curQueueSize = 0 ∧ s.shutdown = false then
      -- the body of the loop is there under DEBUG only
      if debug then some (s.setWorker w .wait) else some s
    else some (s.setWorker w .check)
  -- `pthread_cond_wait`; `shutdown` may have been written since the test
  | .wait => some ({ s with queueLock := none }.setWorker w .blocked)
  | .blocked => none
  | .woken =>
    if s.queueLock = none then some ({ s with queueLock := some (.inl w) }.setWorker w .test)
    else none
  | .check => some (s.setWorker w (if s.shutdown then .unlockExit else .guard))
  | .unlockExit => some ({ s with queueLock := none }.setWorker w .exited)
  | .guard =>
    if 0 < s.curQueueSize then
      some ({ s with curQueueSize := s.curQueueSize - 1 }.setWorker w .front)
    else some (s.setWorker w .relock)
  | .front =>
    match s.queueB with
    | [] => some (s.setWorker w .fault)
    | qMsg :: rest =>
      some ({ s with
        queueB := rest
        dequeued := s.dequeued ++ [(w, qMsg)] }.setWorker w (.unlock qMsg))
  | .unlock qMsg => some ({ s with queueLock := none }.setWorker w (.process qMsg))
  | .process qMsg =>
    some ({ s with executed := s.executed ++ [(w, qMsg)] }.setWorker w (.delete qMsg))
  | .delete qMsg => some ({ s with deleted := s.deleted ++ [(w, qMsg)] }.setWorker w .lock)
  -- a mutex its owner locks again
  | .relock => none
  | .exited => none
  | .fault => none

variable [DecidableEq C]

def setClient (s : Pool n C M) (c : C) (pc : ClientPc M) : Pool n C M :=
  { s with client := Function.update s.client c pc }

def clientStep (s : Pool n C M) (c : C) (wake : Option (Fin n)) : Option (Pool n C M) :=
  match s.client c with
  | .idle => none
  | .lock newMsg =>
    if s.queueLock = none then
      some ({ s with queueLock := some (.inr c) }.setClient c (.push newMsg))
    else none
  | .push newMsg =>
    some ({ s with
      queueB := s.queueB ++ [newMsg]
      submitted := s.submitted ++ [newMsg] }.setClient c .load)
  -- `cur_queue_size++` is a read and a write, and `start` does not take the lock
  | .load => some (s.setClient c (.store s.curQueueSize))
  | .store cur => some ({ s with curQueueSize := cur + 1 }.setClient c .unlock)
  | .unlock => some ({ s with queueLock := none }.setClient c .signal)
  | .signal => (s.setClient c .idle).signal wake
  | .destory => some (s.setClient c (if s.shutdown then .idle else .shut))
  | .shut => some ({ s with shutdown := true }.setClient c .broadcast)
  | .broadcast => some (s.broadcast.setClient c (.next 0))
  | .next i =>
    if i < s.maxThreadNum then some (s.broadcast.setClient c (.join i))
    else some (s.setClient c .joined)
  | .join i =>
    if h : i < n then
      match s.worker ⟨i, h⟩ with
      | .exited => some (s.setClient c (.next (i + 1)))
      | _ => none
    else none
  | .joined => none

end Pool

variable {n : Nat} {C : Type v} {M : Type u} [DecidableEq C]

def step [DecidableEq M] (debug : Bool) (s : Pool n C M) : Act n C M → Option (Pool n C M)
  | .start => s.startStep
  | .add c newMsg =>
    match s.client c with
    | .idle =>
      if newMsg ∈ s.made then none
      else some ({ s with made := s.made ++ [newMsg] }.setClient c (.lock newMsg))
    | _ => none
  | .destory c =>
    match s.client c with
    | .idle => some (s.setClient c .destory)
    | _ => none
  | .client c wake => s.clientStep c wake
  | .work w => s.threadRoutine debug w
  | .spurious w =>
    match s.worker w with
    | .blocked => some (s.setWorker w .woken)
    | _ => none

inductive Step (debug : Bool) (s : Pool n C M) : Act n C M → Pool n C M → Prop
  | call : s.start = .fresh →
      Step debug s .start { s with maxThreadNum := n, start := .reset }
  | reset : s.start = .reset → Step debug s .start { s with curQueueSize := 0, start := .clear }
  | clear : s.start = .clear → Step debug s .start { s with shutdown := false, start := .create 0 }
  | create {i} (h : i < n) : s.start = .create i →
      Step debug s .start ({ s with start := .create (i + 1) }.setWorker ⟨i, h⟩ .lock)
  | started {i} : s.start = .create i → ¬ i < n →
      Step debug s .start { s with start := .returned }
  | add {c newMsg} : s.client c = .idle → newMsg ∉ s.made →
      Step debug s (.add c newMsg)
        ({ s with made := s.made ++ [newMsg] }.setClient c (.lock newMsg))
  | destory {c} : s.client c = .idle → Step debug s (.destory c) (s.setClient c .destory)
  | acquireAdd {c wake newMsg} : s.client c = .lock newMsg → s.queueLock = none →
      Step debug s (.client c wake)
        ({ s with queueLock := some (.inr c) }.setClient c (.push newMsg))
  | push {c wake newMsg} : s.client c = .push newMsg →
      Step debug s (.client c wake) ({ s with
        queueB := s.queueB ++ [newMsg]
        submitted := s.submitted ++ [newMsg] }.setClient c .load)
  | load {c wake} : s.client c = .load →
      Step debug s (.client c wake) (s.setClient c (.store s.curQueueSize))
  | store {c wake cur} : s.client c = .store cur →
      Step debug s (.client c wake) ({ s with curQueueSize := cur + 1 }.setClient c .unlock)
  | unlockAdd {c wake} : s.client c = .unlock →
      Step debug s (.client c wake) ({ s with queueLock := none }.setClient c .signal)
  | signal {c w} : s.client c = .signal → s.worker w = .blocked →
      Step debug s (.client c (some w)) ((s.setClient c .idle).setWorker w .woken)
  | signalNobody {c} : s.client c = .signal → (∀ w, (s.worker w).isBlocked = false) →
      Step debug s (.client c none) (s.setClient c .idle)
  | testShutdown {c wake} : s.client c = .destory →
      Step debug s (.client c wake) (s.setClient c (if s.shutdown then .idle else .shut))
  | shut {c wake} : s.client c = .shut →
      Step debug s (.client c wake) ({ s with shutdown := true }.setClient c .broadcast)
  | broadcast {c wake} : s.client c = .broadcast →
      Step debug s (.client c wake) (s.broadcast.setClient c (.next 0))
  | next {c wake i} : s.client c = .next i → i < s.maxThreadNum →
      Step debug s (.client c wake) (s.broadcast.setClient c (.join i))
  | joined {c wake i} : s.client c = .next i → ¬ i < s.maxThreadNum →
      Step debug s (.client c wake) (s.setClient c .joined)
  | join {c wake i} (h : i < n) : s.client c = .join i → s.worker ⟨i, h⟩ = .exited →
      Step debug s (.client c wake) (s.setClient c (.next (i + 1)))
  | acquire {w} : (s.worker w = .lock ∨ s.worker w = .woken) → s.queueLock = none →
      Step debug s (.work w) ({ s with queueLock := some (.inl w) }.setWorker w .test)
  | empty {w} : s.worker w = .test → s.curQueueSize = 0 ∧ s.shutdown = false → debug = true →
      Step debug s (.work w) (s.setWorker w .wait)
  | wait {w} : s.worker w = .wait →
      Step debug s (.work w) ({ s with queueLock := none }.setWorker w .blocked)
  | spin {w} : s.worker w = .test → s.curQueueSize = 0 ∧ s.shutdown = false → debug = false →
      Step debug s (.work w) s
  | proceed {w} : s.worker w = .test → ¬ (s.curQueueSize = 0 ∧ s.shutdown = false) →
      Step debug s (.work w) (s.setWorker w .check)
  | check {w} : s.worker w = .check →
      Step debug s (.work w) (s.setWorker w (if s.shutdown then .unlockExit else .guard))
  | unlockExit {w} : s.worker w = .unlockExit →
      Step debug s (.work w) ({ s with queueLock := none }.setWorker w .exited)
  | take {w} : s.worker w = .guard → 0 < s.curQueueSize →
      Step debug s (.work w) ({ s with curQueueSize := s.curQueueSize - 1 }.setWorker w .front)
  | relock {w} : s.worker w = .guard → ¬ 0 < s.curQueueSize →
      Step debug s (.work w) (s.setWorker w .relock)
  | fault {w} : s.worker w = .front → s.queueB = [] →
      Step debug s (.work w) (s.setWorker w .fault)
  | pop {w qMsg rest} : s.worker w = .front → s.queueB = qMsg :: rest →
      Step debug s (.work w) ({ s with
        queueB := rest
        dequeued := s.dequeued ++ [(w, qMsg)] }.setWorker w (.unlock qMsg))
  | unlock {w qMsg} : s.worker w = .unlock qMsg →
      Step debug s (.work w) ({ s with queueLock := none }.setWorker w (.process qMsg))
  | process {w qMsg} : s.worker w = .process qMsg →
      Step debug s (.work w)
        ({ s with executed := s.executed ++ [(w, qMsg)] }.setWorker w (.delete qMsg))
  | delete {w qMsg} : s.worker w = .delete qMsg →
      Step debug s (.work w)
        ({ s with deleted := s.deleted ++ [(w, qMsg)] }.setWorker w .lock)
  | spurious {w} : s.worker w = .blocked → Step debug s (.spurious w) (s.setWorker w .woken)

variable {debug : Bool} {s s' : Pool n C M}

theorem step_of_startStep (h : s.startStep = some s') : Step debug s .start s' := by
  unfold Pool.startStep at h
  split at h
  case h_1 hs => cases h; exact .call hs
  case h_2 hs => cases h; exact .reset hs
  case h_3 hs => cases h; exact .clear hs
  case h_4 i hs =>
    split at h
    case isTrue hi => cases h; exact .create hi hs
    case isFalse hi => cases h; exact .started hs hi
  case h_5 => cases h

theorem step_of_threadRoutine {w : Fin n} (h : s.threadRoutine debug w = some s') :
    Step debug s (.work w) s' := by
  unfold Pool.threadRoutine at h
  split at h
  case h_2 hw =>
    split at h
    case isTrue free => cases h; exact .acquire (.inl hw) free
    case isFalse => cases h
  case h_3 hw =>
    split at h
    case isTrue empty =>
      split at h
      case isTrue dbg => cases h; exact .empty hw empty dbg
      case isFalse dbg => cases h; exact .spin hw empty (by simpa using dbg)
    case isFalse go => cases h; exact .proceed hw go
  case h_4 hw => cases h; exact .wait hw
  case h_6 hw =>
    split at h
    case isTrue free => cases h; exact .acquire (.inr hw) free
    case isFalse => cases h
  case h_7 hw => cases h; exact .check hw
  case h_8 hw => cases h; exact .unlockExit hw
  case h_9 hw =>
    split at h
    case isTrue pos => cases h; exact .take hw pos
    case isFalse none => cases h; exact .relock hw none
  case h_10 hw =>
    split at h
    case h_1 hq => cases h; exact .fault hw hq
    case h_2 qMsg rest hq => cases h; exact .pop hw hq
  case h_11 hw => cases h; exact .unlock hw
  case h_12 hw => cases h; exact .process hw
  case h_13 hw => cases h; exact .delete hw
  all_goals cases h

theorem step_of_clientStep {c : C} {wake : Option (Fin n)} (h : s.clientStep c wake = some s') :
    Step debug s (.client c wake) s' := by
  unfold Pool.clientStep at h
  split at h
  case h_1 => cases h
  case h_2 hc =>
    split at h
    case isTrue free => cases h; exact .acquireAdd hc free
    case isFalse => cases h
  case h_3 hc => cases h; exact .push hc
  case h_4 hc => cases h; exact .load hc
  case h_5 hc => cases h; exact .store hc
  case h_6 hc => cases h; exact .unlockAdd hc
  case h_7 hc =>
    unfold Pool.signal at h
    split at h
    case h_1 w =>
      split at h
      case h_1 hw => cases h; exact .signal hc hw
      case h_2 => cases h
    case h_2 =>
      split at h
      case isTrue nobody => cases h; exact .signalNobody hc nobody
      case isFalse => cases h
  case h_8 hc => cases h; exact .testShutdown hc
  case h_9 hc => cases h; exact .shut hc
  case h_10 hc => cases h; exact .broadcast hc
  case h_11 hc =>
    split at h
    case isTrue more => cases h; exact .next hc more
    case isFalse last => cases h; exact .joined hc last
  case h_12 hc =>
    split at h
    case isTrue hi =>
      split at h
      case h_1 hw => cases h; exact .join hi hc hw
      case h_2 => cases h
    case isFalse => cases h
  case h_13 => cases h

theorem step_cases [DecidableEq M] {a : Act n C M} (h : step debug s a = some s') :
    Step debug s a s' := by
  cases a with
  | start => exact step_of_startStep h
  | add c newMsg =>
    simp only [step] at h
    split at h
    case h_1 hc =>
      split at h
      case isTrue => cases h
      case isFalse fresh => cases h; exact .add hc fresh
    case h_2 => cases h
  | destory c =>
    simp only [step] at h
    split at h
    case h_1 hc => cases h; exact .destory hc
    case h_2 => cases h
  | client c wake => exact step_of_clientStep h
  | work w => exact step_of_threadRoutine h
  | spurious w =>
    simp only [step] at h
    split at h
    case h_1 hw => cases h; exact .spurious hw
    case h_2 => cases h

theorem Step.eq [DecidableEq M] {a : Act n C M} (h : Step debug s a s') :
    step debug s a = some s' := by
  cases h with
  | call hs | reset hs | clear hs => simp only [step, Pool.startStep, hs]
  | create hi hs => simp only [step, Pool.startStep, hs, dif_pos hi]
  | started hs hi => simp only [step, Pool.startStep, hs, dif_neg hi]
  | add hc fresh => simp only [step, hc, if_neg fresh]
  | destory hc => simp only [step, hc]
  | acquireAdd hc free => simp only [step, Pool.clientStep, hc, if_pos free]
  | push hc | load hc | store hc | unlockAdd hc => simp only [step, Pool.clientStep, hc]
  | signal hc hw => simp only [step, Pool.clientStep, hc, Pool.signal, Pool.setClient, hw]
  | signalNobody hc nobody =>
    simp only [step, Pool.clientStep, hc, Pool.signal]
    exact if_pos nobody
  | testShutdown hc | shut hc | broadcast hc => simp only [step, Pool.clientStep, hc]
  | next hc more => simp only [step, Pool.clientStep, hc, if_pos more]
  | joined hc last => simp only [step, Pool.clientStep, hc, if_neg last]
  | join hi hc hw => simp only [step, Pool.clientStep, hc, dif_pos hi, hw]
  | acquire hw free =>
    cases hw with
    | inl hw | inr hw => simp only [step, Pool.threadRoutine, hw, if_pos free]
  | empty hw empty dbg => simp only [step, Pool.threadRoutine, hw, if_pos empty, if_pos dbg]
  | spin hw empty dbg => simp [step, Pool.threadRoutine, hw, empty, dbg]
  | proceed hw go => simp only [step, Pool.threadRoutine, hw, if_neg go]
  | take hw pos => simp only [step, Pool.threadRoutine, hw, if_pos pos]
  | relock hw none => simp only [step, Pool.threadRoutine, hw, if_neg none]
  | fault hw hq | pop hw hq => simp only [step, Pool.threadRoutine, hw, hq]
  | wait hw | check hw | unlockExit hw | unlock hw | process hw | delete hw =>
    simp only [step, Pool.threadRoutine, hw]
  | spurious hw => simp only [step, hw]

end Leano.PthreadPool
