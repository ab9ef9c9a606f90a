import Leano.Lib.Run
import Leano.Lib.Monitor

/-! `ConditionQueue<T>` of `include/conditionqueue.h`: a queue of `T*` behind one mutex and one
condition variable. A `T*` is an `Option P`, `none` being `nullptr`. -/

universe u v

namespace Leano.ConditionQueue

open Leano.Lib

structure Queue (P : Type u) where
  dataqueue : List (Option P)
  used : UInt32
  waitThreadNum : UInt32
  deriving DecidableEq

/-- The operations. `push` signals and the second `CleanQueue` broadcasts outside of the mutex, so
these are sections of their own; `timedOut` is the way out of `wait_timeout_pop` when
`pthread_cond_timedwait` has failed and holds the mutex again. -/
inductive Op (P : Type u) where
  | push (data : Option P)
  | signal
  | tryPop
  | waitPop
  | waitTimeoutPop (timeout : Nat)
  | timedOut
  | cleanQueue
  | cleanQueueWith
  | cleanLocked
  | size
  | decrease
  | increase
  | empty
  deriving DecidableEq

namespace Op

variable {P : Type u}

def isEntry : Op P → Bool
  | .signal => false
  | .timedOut => false
  | .cleanLocked => false
  | _ => true

def waits : Op P → Bool
  | .waitPop => true
  | .waitTimeoutPop _ => true
  | _ => false

def signals : Op P → Bool
  | .signal => true
  | _ => false

end Op

inductive Res (P : Type u) where
  | unit
  | pop (ptr : Option P) (removed : Bool)
  | number (n : UInt32)
  | empty (b : Bool)
  deriving DecidableEq

inductive Remover (ι : Type v) where
  | pop (t : ι)
  | clean (t : ι)
  deriving DecidableEq

/-- The queue, its callers and four histories: the pointers pushed, the pointers removed and by
whom, the objects released by cleaning, and the pointers that pops returned from their removal
branch. -/
structure State (ι : Type v) (P : Type u) where
  q : Queue P
  threads : ι → Phase (Op P) (Res P)
  pushed : List (Option P)
  removed : List (Remover ι × Option P)
  released : List P
  popped : List (ι × Option P)

inductive Act (ι : Type v) (P : Type u) where
  | call (t : ι) (op : Op P)
  | run (t : ι) (wake : Option ι)
  | spurious (t : ι)
  | timeout (t : ι)
  | ret (t : ι)

namespace State

variable {ι : Type v} {P : Type u}

def init : State ι P := ⟨⟨[], 0, 0⟩, fun _ => .idle, [], [], [], []⟩

def size (s : State ι P) : UInt32 := UInt32.ofNat (s.q.used.toNat + s.q.dataqueue.length)

def waitSize (s : State ι P) : UInt32 := s.q.waitThreadNum

variable [DecidableEq ι]

def setThread (s : State ι P) (t : ι) (ph : Phase (Op P) (Res P)) : State ι P :=
  { s with threads := Function.update s.threads t ph }

def push (s : State ι P) (t : ι) (data : Option P) : State ι P :=
  { s with
    q := { s.q with dataqueue := s.q.dataqueue ++ [data] }
    pushed := s.pushed ++ [data] }.setThread t (.ready .signal)

def popFront (s : State ι P) (t : ι) (ptr : Option P) (rest : List (Option P)) (waiters : UInt32) :
    State ι P :=
  { s with
    q := { dataqueue := rest, used := s.q.used + 1, waitThreadNum := waiters }
    removed := s.removed ++ [(Remover.pop t, ptr)] }.setThread t (.returned (.pop ptr true))

def tryPop (s : State ι P) (t : ι) : State ι P :=
  match s.q.dataqueue with
  | [] => s.setThread t (.returned (.pop none false))
  | ptr :: rest => s.popFront t ptr rest s.q.waitThreadNum

def waitPop (s : State ι P) (t : ι) : State ι P :=
  match s.q.dataqueue with
  | [] => { s with q := { s.q with waitThreadNum := s.q.waitThreadNum + 1 } }.setThread t
      (.blocked .waitPop)
  | ptr :: rest => s.popFront t ptr rest (s.q.waitThreadNum - 1)

def waitTimeoutPop (s : State ι P) (t : ι) (timeout : Nat) : State ι P :=
  match s.q.dataqueue with
  | [] => s.setThread t (.blocked (.waitTimeoutPop timeout))
  | ptr :: rest => s.popFront t ptr rest s.q.waitThreadNum

def clean (s : State ι P) (t : ι) : State ι P :=
  { s with
    q := { s.q with dataqueue := [], used := 0 }
    removed := s.removed ++ s.q.dataqueue.map fun ptr => (Remover.clean t, ptr)
    released := s.released ++ s.q.dataqueue.filterMap id }.setThread t (.returned .unit)

def decrease (s : State ι P) (t : ι) : State ι P :=
  let used := if 0 < s.q.used then s.q.used - 1 else s.q.used
  { s with q := { s.q with used := used } }.setThread t (.returned (.number used))

def increase (s : State ι P) (t : ι) : State ι P :=
  { s with q := { s.q with used := s.q.used + 1 } }.setThread t (.returned (.number (s.q.used + 1)))

def giveBack (s : State ι P) (t : ι) : Res P → State ι P
  | .pop ptr true => { s with popped := s.popped ++ [(t, ptr)] }.setThread t .idle
  | _ => s.setThread t .idle

variable [Fintype ι]

def critical (s : State ι P) (t : ι) (wake : Option ι) : Op P → Option (State ι P)
  | .push data => some (s.push t data)
  | .signal =>
    (notifyOne Op.waits s.threads wake).map fun th =>
      { s with threads := th }.setThread t (.returned .unit)
  | .tryPop => some (s.tryPop t)
  | .waitPop => some (s.waitPop t)
  | .waitTimeoutPop timeout => some (s.waitTimeoutPop t timeout)
  | .timedOut => some (s.setThread t (.returned (.pop none false)))
  | .cleanQueue => some (s.clean t)
  | .cleanQueueWith =>
    some ({ s with threads := notifyAll Op.waits s.threads }.setThread t (.ready .cleanLocked))
  | .cleanLocked => some (s.clean t)
  | .size => some (s.setThread t (.returned (.number s.size)))
  | .decrease => some (s.decrease t)
  | .increase => some (s.increase t)
  | .empty => some (s.setThread t (.returned (.empty s.q.dataqueue.isEmpty)))

end State

variable {ι : Type v} {P : Type u} [Fintype ι] [DecidableEq ι]

def step (s : State ι P) : Act ι P → Option (State ι P)
  | .call t op =>
    match s.threads t with
    | .idle => if op.isEntry then some (s.setThread t (.ready op)) else none
    | _ => none
  | .run t wake => (s.threads t).section?.bind (s.critical t wake)
  | .spurious t =>
    match s.threads t with
    | .blocked op => some (s.setThread t (.woken op))
    | _ => none
  -- the timer may fire on a thread that has just taken a signal, which is then lost
  | .timeout t =>
    match s.threads t with
    | .blocked (.waitTimeoutPop _) => some (s.setThread t (.woken .timedOut))
    | .woken (.waitTimeoutPop _) => some (s.setThread t (.woken .timedOut))
    | _ => none
  | .ret t =>
    match s.threads t with
    | .returned r => some (s.giveBack t r)
    | _ => none

def Op.waitersAfter? (waiters : UInt32) : Op P → Option UInt32
  | .tryPop => some waiters
  | .waitPop => some (waiters - 1)
  | .waitTimeoutPop _ => some waiters
  | _ => none

inductive Step (s : State ι P) : Act ι P → State ι P → Prop
  | call {t op} : s.threads t = .idle → op.isEntry = true →
      Step s (.call t op) (s.setThread t (.ready op))
  | spurious {t op} : s.threads t = .blocked op → Step s (.spurious t) (s.setThread t (.woken op))
  | timeout {t op} : (s.threads t = .blocked op ∨ s.threads t = .woken op) → op.waits = true →
      Step s (.timeout t) (s.setThread t (.woken .timedOut))
  | ret {t r} : s.threads t = .returned r → Step s (.ret t) (s.giveBack t r)
  | push {t w data} : (s.threads t).section? = some (.push data) →
      Step s (.run t w) (s.push t data)
  | signal {t w th} : (s.threads t).section? = some .signal → Notified Op.waits s.threads th →
      Step s (.run t w) ({ s with threads := th }.setThread t (.returned .unit))
  | pop {t w op ptr rest waiters} : (s.threads t).section? = some op →
      op.waitersAfter? s.q.waitThreadNum = some waiters → s.q.dataqueue = ptr :: rest →
      Step s (.run t w) (s.popFront t ptr rest waiters)
  | wait {t w op waiters} : (s.threads t).section? = some op → op.waits = true →
      s.q.dataqueue = [] →
      Step s (.run t w)
        ({ s with q := { s.q with waitThreadNum := waiters } }.setThread t (.blocked op))
  | clean {t w op} : (s.threads t).section? = some op → op.waits = false →
      Step s (.run t w) (s.clean t)
  | broadcast {t w} : (s.threads t).section? = some .cleanQueueWith →
      Step s (.run t w)
        ({ s with threads := notifyAll Op.waits s.threads }.setThread t (.ready .cleanLocked))
  | other {t w op used r} : (s.threads t).section? = some op → op.waits = false →
      op.signals = false → (∀ ptr, r ≠ .pop ptr true) →
      Step s (.run t w) ({ s with q := { s.q with used := used } }.setThread t (.returned r))

theorem step_of_critical {s s' : State ι P} {t : ι} {w : Option ι} {op : Op P}
    (hs : (s.threads t).section? = some op) (h : s.critical t w op = some s') :
    Step s (.run t w) s' := by
  cases op with
  | push data => cases h; exact .push hs
  | signal =>
    obtain ⟨th, hth, rfl⟩ := Option.map_eq_some_iff.mp h
    exact .signal hs (notified_of_notifyOne hth)
  | tryPop =>
    cases h
    simp only [State.tryPop]
    split
    case h_1 => exact .other hs rfl rfl (by simp)
    case h_2 ptr rest hq => exact .pop hs rfl hq
  | waitPop =>
    cases h
    simp only [State.waitPop]
    split
    case h_1 hq => exact .wait hs rfl hq
    case h_2 ptr rest hq => exact .pop hs rfl hq
  | waitTimeoutPop timeout =>
    cases h
    simp only [State.waitTimeoutPop]
    split
    case h_1 hq => exact .wait hs rfl hq
    case h_2 ptr rest hq => exact .pop hs rfl hq
  | timedOut => cases h; exact .other hs rfl rfl (by simp)
  | cleanQueue => cases h; exact .clean hs rfl
  | cleanQueueWith => cases h; exact .broadcast hs
  | cleanLocked => cases h; exact .clean hs rfl
  | size => cases h; exact .other hs rfl rfl (by simp)
  | decrease => cases h; exact .other hs rfl rfl (by simp)
  | increase => cases h; exact .other hs rfl rfl (by simp)
  | empty => cases h; exact .other hs rfl rfl (by simp)

theorem step_cases {s s' : State ι P} {a : Act ι P} (h : step s a = some s') : Step s a s' := by
  cases a with
  | call t op =>
    simp only [step] at h
    split at h
    case h_1 ht =>
      split at h
      case isTrue hop => cases h; exact .call ht hop
      case isFalse => cases h
    case h_2 => cases h
  | run t w =>
    obtain ⟨op, hop, h⟩ := Option.bind_eq_some_iff.mp h
    exact step_of_critical hop h
  | spurious t =>
    simp only [step] at h
    split at h
    case h_1 op ht => cases h; exact .spurious ht
    case h_2 => cases h
  | timeout t =>
    simp only [step] at h
    split at h
    case h_1 ht => cases h; exact .timeout (.inl ht) rfl
    case h_2 ht => cases h; exact .timeout (.inr ht) rfl
    case h_3 => cases h
  | ret t =>
    simp only [step] at h
    split at h
    case h_1 r ht => cases h; exact .ret ht
    case h_2 => cases h

end Leano.ConditionQueue
