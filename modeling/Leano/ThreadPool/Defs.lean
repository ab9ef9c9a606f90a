import Leano.SyncQueue.Defs

/-! `ThreadPool<T>` of `include/ThreadPool.hpp`: `n` workers on a `SyncQueue<T>`, and clients that
add data, pause, continue and stop the pool. Workers start after they have blocked `SIGUSR1`. -/

universe u v

namespace Leano.ThreadPool

open Leano.Lib

def maxTaskCount : Int := 99

/-- Where a worker stands in `RunInThread`. A task is `none` while `task_param` is as declared,
that is when `Take` has come back without assigning it. -/
inductive WorkerPc (T : Type u) where
  | loop
  | check
  | sigwait
  | take
  | test (task : Option T)
  | process (task : Option T)
  | exited
  deriving DecidableEq

inductive SigwaitRet where
  | zero
  | intr
  | error
  deriving DecidableEq

inductive ClientPc (n : Nat) where
  | idle
  | addData
  | pause (rest : List (Fin n))
  | kill (rest : List (Fin n))
  | clear (w : Fin n) (rest : List (Fin n))
  | stopQueue
  | stopFlag
  | join (rest : List (Fin n))
  | stopWait
  deriving DecidableEq

inductive Once where
  | fresh
  | active
  | done
  deriving DecidableEq

structure Pool (n : Nat) (C : Type v) (T : Type u) where
  queue : SyncQueue.State (Fin n ⊕ C) T
  running : Bool
  waitsig : Fin n → Bool
  sigusr1 : Fin n → Bool
  worker : Fin n → WorkerPc T
  client : C → ClientPc n
  threadgroup : List (Fin n)
  once : Once
  calls : List (Fin n × Option T)
  dropped : List (Fin n × T)

inductive Act (n : Nat) (C : Type v) (T : Type u) where
  | addData (c : C) (x : T)
  | pause (c : C)
  | continues (c : C)
  | stop (c : C)
  | client (c : C)
  | work (w : Fin n) (ret : SigwaitRet)
  | queue (a : SyncQueue.Act (Fin n ⊕ C) T)
  deriving DecidableEq

namespace Pool

variable {n : Nat} {C : Type v} {T : Type u}

def init : Pool n C T where
  queue := .init maxTaskCount
  running := true
  waitsig := fun _ => false
  sigusr1 := fun _ => false
  worker := fun _ => .loop
  client := fun _ => .idle
  threadgroup := List.finRange n
  once := .fresh
  calls := []
  dropped := []

def setWorker (s : Pool n C T) (w : Fin n) (pc : WorkerPc T) : Pool n C T :=
  { s with worker := Function.update s.worker w pc }

def drop (s : Pool n C T) (w : Fin n) : Option T → Pool n C T
  | some x => { s with dropped := s.dropped ++ [(w, x)] }.setWorker w .exited
  | none => s.setWorker w .exited

variable [Fintype C] [DecidableEq C]

def setClient (s : Pool n C T) (c : C) (pc : ClientPc n) : Pool n C T :=
  { s with client := Function.update s.client c pc }

def onQueue (s : Pool n C T) (a : SyncQueue.Act (Fin n ⊕ C) T) : Option (Pool n C T) :=
  (SyncQueue.step s.queue a).map fun q => { s with queue := q }

def enterTake (s : Pool n C T) (w : Fin n) : Option (Pool n C T) :=
  (s.setWorker w .take).onQueue (.call (.inl w) .take)

/-- `RunInThread`, one access to shared state at a time. -/
def runInThread (s : Pool n C T) (w : Fin n) (ret : SigwaitRet) : Option (Pool n C T) :=
  match s.worker w with
  | .loop => some (s.setWorker w (if s.running then .check else .exited))
  | .check => if s.waitsig w then some (s.setWorker w .sigwait) else s.enterTake w
  | .sigwait =>
    match ret with
    | .zero =>
      if s.sigusr1 w then { s with sigusr1 := Function.update s.sigusr1 w false }.enterTake w
      else none
    | .intr => some (s.setWorker w .loop)
    | .error => some ({ s with running := false }.setWorker w .exited)
  | .take =>
    match s.queue.threads (.inl w) with
    | .returned (.take task) => (s.setWorker w (.test task)).onQueue (.ret (.inl w))
    | _ => none
  | .test task => some (if s.running then s.setWorker w (.process task) else s.drop w task)
  | .process task => some ({ s with calls := s.calls ++ [(w, task)] }.setWorker w .loop)
  | .exited => none

def clientStep (s : Pool n C T) (c : C) : Option (Pool n C T) :=
  match s.client c with
  | .idle => none
  | .addData =>
    match s.queue.threads (.inr c) with
    | .returned .put => (s.setClient c .idle).onQueue (.ret (.inr c))
    | _ => none
  | .pause [] => some (s.setClient c .idle)
  | .pause (w :: rest) =>
    some ({ s with waitsig := Function.update s.waitsig w true }.setClient c (.pause rest))
  | .kill [] => some (s.setClient c .idle)
  | .kill (w :: rest) =>
    some ({ s with sigusr1 := Function.update s.sigusr1 w true }.setClient c (.clear w rest))
  | .clear w rest =>
    some ({ s with waitsig := Function.update s.waitsig w false }.setClient c (.kill rest))
  -- `StopThreadGroup`: the queue first, then the flag, then the joins
  | .stopQueue =>
    match s.queue.threads (.inr c) with
    | .returned .stop => (s.setClient c .stopFlag).onQueue (.ret (.inr c))
    | _ => none
  | .stopFlag => some ({ s with running := false }.setClient c (.join s.threadgroup))
  | .join [] => some ({ s with threadgroup := [], once := .done }.setClient c .idle)
  | .join (w :: rest) =>
    match s.worker w with
    | .exited => some (s.setClient c (.join rest))
    | _ => none
  | .stopWait =>
    match s.once with
    | .done => some (s.setClient c .idle)
    | _ => none

/-- `Stop`: `call_once` lets one client through and holds back the others until it is done. -/
def stop (s : Pool n C T) (c : C) : Option (Pool n C T) :=
  match s.once with
  | .fresh => ({ s with once := .active }.setClient c .stopQueue).onQueue (.call (.inr c) .stop)
  | _ => some (s.setClient c .stopWait)

end Pool

variable {n : Nat} {C : Type v} {T : Type u} [Fintype C] [DecidableEq C]

def step (s : Pool n C T) : Act n C T → Option (Pool n C T)
  | .addData c x =>
    match s.client c with
    | .idle => (s.setClient c .addData).onQueue (.call (.inr c) (.put x))
    | _ => none
  | .pause c =>
    match s.client c with
    | .idle => some (s.setClient c (.pause s.threadgroup))
    | _ => none
  | .continues c =>
    match s.client c with
    | .idle => some (s.setClient c (.kill s.threadgroup))
    | _ => none
  | .stop c =>
    match s.client c with
    | .idle => s.stop c
    | _ => none
  | .client c => s.clientStep c
  | .work w ret => s.runInThread w ret
  | .queue a => if a.isInner then s.onQueue a else none

inductive Step (s : Pool n C T) : Act n C T → Pool n C T → Prop
  | addData {c x q} : s.client c = .idle →
      SyncQueue.step s.queue (.call (.inr c) (.put x)) = some q →
      Step s (.addData c x) { s.setClient c .addData with queue := q }
  | pause {c} : s.client c = .idle → Step s (.pause c) (s.setClient c (.pause s.threadgroup))
  | continues {c} : s.client c = .idle →
      Step s (.continues c) (s.setClient c (.kill s.threadgroup))
  | stop {c q} : s.client c = .idle → s.once = .fresh →
      SyncQueue.step s.queue (.call (.inr c) .stop) = some q →
      Step s (.stop c) { s.setClient c .stopQueue with queue := q, once := .active }
  | stopAgain {c} : s.client c = .idle → s.once ≠ .fresh →
      Step s (.stop c) (s.setClient c .stopWait)
  | addDataDone {c q} : s.client c = .addData →
      SyncQueue.step s.queue (.ret (.inr c)) = some q →
      Step s (.client c) { s.setClient c .idle with queue := q }
  | pauseDone {c} : s.client c = .pause [] → Step s (.client c) (s.setClient c .idle)
  | pauseNext {c w rest} : s.client c = .pause (w :: rest) →
      Step s (.client c)
        { s.setClient c (.pause rest) with waitsig := Function.update s.waitsig w true }
  | killDone {c} : s.client c = .kill [] → Step s (.client c) (s.setClient c .idle)
  | killNext {c w rest} : s.client c = .kill (w :: rest) →
      Step s (.client c)
        { s.setClient c (.clear w rest) with sigusr1 := Function.update s.sigusr1 w true }
  | clear {c w rest} : s.client c = .clear w rest →
      Step s (.client c)
        { s.setClient c (.kill rest) with waitsig := Function.update s.waitsig w false }
  | stopQueue {c q} : s.client c = .stopQueue → SyncQueue.step s.queue (.ret (.inr c)) = some q →
      Step s (.client c) { s.setClient c .stopFlag with queue := q }
  | stopFlag {c} : s.client c = .stopFlag →
      Step s (.client c) { s.setClient c (.join s.threadgroup) with running := false }
  | joinDone {c} : s.client c = .join [] →
      Step s (.client c) { s.setClient c .idle with threadgroup := [], once := .done }
  | joinNext {c w rest} : s.client c = .join (w :: rest) → s.worker w = .exited →
      Step s (.client c) (s.setClient c (.join rest))
  | stopWait {c} : s.client c = .stopWait → s.once = .done →
      Step s (.client c) (s.setClient c .idle)
  | loop {w ret} : s.worker w = .loop →
      Step s (.work w ret) (s.setWorker w (if s.running then .check else .exited))
  | check {w ret} : s.worker w = .check → s.waitsig w = true →
      Step s (.work w ret) (s.setWorker w .sigwait)
  | enterTake {w ret q} : s.worker w = .check → s.waitsig w = false →
      SyncQueue.step s.queue (.call (.inl w) .take) = some q →
      Step s (.work w ret) { s.setWorker w .take with queue := q }
  | signalled {w q} : s.worker w = .sigwait → s.sigusr1 w = true →
      SyncQueue.step s.queue (.call (.inl w) .take) = some q →
      Step s (.work w .zero)
        { s.setWorker w .take with queue := q, sigusr1 := Function.update s.sigusr1 w false }
  | interrupted {w} : s.worker w = .sigwait → Step s (.work w .intr) (s.setWorker w .loop)
  | failed {w} : s.worker w = .sigwait →
      Step s (.work w .error) { s.setWorker w .exited with running := false }
  | take {w ret task q} : s.worker w = .take →
      s.queue.threads (.inl w) = .returned (.take task) →
      SyncQueue.step s.queue (.ret (.inl w)) = some q →
      Step s (.work w ret) { s.setWorker w (.test task) with queue := q }
  | test {w ret task} : s.worker w = .test task → s.running = true →
      Step s (.work w ret) (s.setWorker w (.process task))
  | drop {w ret task} : s.worker w = .test task → s.running = false →
      Step s (.work w ret) (s.drop w task)
  | process {w ret task} : s.worker w = .process task →
      Step s (.work w ret) { s.setWorker w .loop with calls := s.calls ++ [(w, task)] }
  | queue {a q} : a.isInner = true → SyncQueue.step s.queue a = some q →
      Step s (.queue a) { s with queue := q }

theorem Pool.eq_of_onQueue {s s' : Pool n C T} {a : SyncQueue.Act (Fin n ⊕ C) T}
    (h : s.onQueue a = some s') :
    ∃ q, SyncQueue.step s.queue a = some q ∧ s' = { s with queue := q } := by
  obtain ⟨q, hq, rfl⟩ := Option.map_eq_some_iff.mp h
  exact ⟨q, hq, rfl⟩

theorem step_of_runInThread {s s' : Pool n C T} {w : Fin n} {ret : SigwaitRet}
    (h : s.runInThread w ret = some s') : Step s (.work w ret) s' := by
  unfold Pool.runInThread at h
  cases hw : s.worker w with
  | loop =>
    rw [hw] at h
    cases h
    exact .loop hw
  | check =>
    simp only [hw] at h
    split at h
    case isTrue sig => cases h; exact .check hw sig
    case isFalse sig =>
      obtain ⟨q, hq, rfl⟩ := Pool.eq_of_onQueue h
      exact .enterTake hw (by simpa using sig) hq
  | sigwait =>
    cases ret with
    | zero =>
      simp only [hw] at h
      split at h
      case isTrue sig =>
        obtain ⟨q, hq, rfl⟩ := Pool.eq_of_onQueue h
        exact .signalled hw sig hq
      case isFalse => cases h
    | intr =>
      rw [hw] at h
      cases h
      exact .interrupted hw
    | error =>
      rw [hw] at h
      cases h
      exact .failed hw
  | take =>
    simp only [hw] at h
    split at h
    case h_1 task ht =>
      obtain ⟨q, hq, rfl⟩ := Pool.eq_of_onQueue h
      exact .take hw ht hq
    case h_2 => cases h
  | test task =>
    simp only [hw] at h
    split at h
    case isTrue run => cases h; exact .test hw run
    case isFalse run => cases h; exact .drop hw (by simpa using run)
  | process task =>
    rw [hw] at h
    cases h
    exact .process hw
  | exited => simp [hw] at h

theorem step_of_clientStep {s s' : Pool n C T} {c : C} (h : s.clientStep c = some s') :
    Step s (.client c) s' := by
  unfold Pool.clientStep at h
  split at h
  case h_1 => cases h
  case h_2 hc =>
    split at h
    case h_1 =>
      obtain ⟨q, hq, rfl⟩ := Pool.eq_of_onQueue h
      exact .addDataDone hc hq
    case h_2 => cases h
  case h_3 hc => cases h; exact .pauseDone hc
  case h_4 hc => cases h; exact .pauseNext hc
  case h_5 hc => cases h; exact .killDone hc
  case h_6 hc => cases h; exact .killNext hc
  case h_7 hc => cases h; exact .clear hc
  case h_8 hc =>
    split at h
    case h_1 =>
      obtain ⟨q, hq, rfl⟩ := Pool.eq_of_onQueue h
      exact .stopQueue hc hq
    case h_2 => cases h
  case h_9 hc => cases h; exact .stopFlag hc
  case h_10 hc => cases h; exact .joinDone hc
  case h_11 hc =>
    split at h
    case h_1 hw => cases h; exact .joinNext hc hw
    case h_2 => cases h
  case h_12 hc =>
    split at h
    case h_1 done => cases h; exact .stopWait hc done
    case h_2 => cases h

theorem step_of_stop {s s' : Pool n C T} {c : C} (hc : s.client c = .idle)
    (h : s.stop c = some s') : Step s (.stop c) s' := by
  unfold Pool.stop at h
  split at h
  case h_1 fresh =>
    obtain ⟨q, hq, rfl⟩ := Pool.eq_of_onQueue h
    exact .stop hc fresh hq
  case h_2 started => cases h; exact .stopAgain hc started

theorem step_cases {s s' : Pool n C T} {a : Act n C T} (h : step s a = some s') :
    Step s a s' := by
  cases a with
  | addData c x =>
    simp only [step] at h
    split at h
    case h_1 hc =>
      obtain ⟨q, hq, rfl⟩ := Pool.eq_of_onQueue h
      exact .addData hc hq
    case h_2 => cases h
  | pause c =>
    simp only [step] at h
    split at h
    case h_1 hc => cases h; exact .pause hc
    case h_2 => cases h
  | continues c =>
    simp only [step] at h
    split at h
    case h_1 hc => cases h; exact .continues hc
    case h_2 => cases h
  | stop c =>
    simp only [step] at h
    split at h
    case h_1 hc => exact step_of_stop hc h
    case h_2 => cases h
  | client c => exact step_of_clientStep h
  | work w ret => exact step_of_runInThread h
  | queue a =>
    simp only [step] at h
    split at h
    case isTrue inner =>
      obtain ⟨q, hq, rfl⟩ := Pool.eq_of_onQueue h
      exact .queue inner hq
    case isFalse => cases h

end Leano.ThreadPool
