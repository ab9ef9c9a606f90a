import Leano.Lib.Run
import Mathlib.Logic.Function.Basic

/-! `ConnPool` of `src/connection_pool.cpp`, called by any number of threads. A `Connection*` is an
`Option K`, where `K` are the objects that `connect` makes (not their addresses). -/

universe u v

namespace Leano.ConnPool

open Leano.Lib

inductive Connect (K : Type u) where
  | connection (k : K)
  | sqlException
  | runtimeError
  deriving DecidableEq

inductive Op (K : Type u) where
  | getConnection
  | releaseConnection (conn : Option K)
  deriving DecidableEq

inductive Res (K : Type u) where
  | connection (con : Option K)
  | released
  deriving DecidableEq

/-- Each call has one critical section, in which it does all it does. It is one step here, which
takes a lock that excludes. -/
inductive Pc (K : Type u) where
  | idle
  | inside (op : Op K)
  | returned (res : Res K)
  deriving DecidableEq

structure Caller (K : Type u) where
  pc : Pc K
  held : List K

/-- The pool, its callers and two histories: the connections made and those deleted. `init` is the
counter of the loop in `InitConnection`, for as long as the constructor runs. -/
structure State (ι : Type v) (K : Type u) where
  curSize : Int
  maxSize : Int
  connList : List K
  init : Option Int
  callers : ι → Caller K
  made : List K
  deleted : List K

inductive Act (ι : Type v) (K : Type u) where
  | initConnection (r : Connect K)
  | constructed
  | call (t : ι) (op : Op K)
  | run (t : ι) (isClosed : Bool) (r : Connect K)
  | ret (t : ι)

namespace State

variable {ι : Type v} {K : Type u}

def new (maxSize : Int) : State ι K :=
  ⟨0, maxSize, [], some 0, fun _ => ⟨.idle, []⟩, [], []⟩

def iInitialSize (s : State ι K) : Int := s.maxSize.tdiv 2

variable [DecidableEq ι]

def setCaller (s : State ι K) (t : ι) (c : Caller K) : State ι K :=
  { s with callers := Function.update s.callers t c }

def answer (s : State ι K) (t : ι) (r : Res K) : State ι K :=
  s.setCaller t { s.callers t with pc := .returned r }

variable [DecidableEq K]

def createConnection (s : State ι K) : Connect K → Option (State ι K × Option K)
  | .connection k => if k ∈ s.made then none else some ({ s with made := s.made ++ [k] }, some k)
  | .sqlException => some (s, none)
  | .runtimeError => some (s, none)

def initConnection (s : State ι K) (i : Int) (r : Connect K) : Option (State ι K) :=
  (s.createConnection r).map fun (s, conn) =>
    match conn with
    | some k =>
      { s with connList := s.connList ++ [k], curSize := s.curSize + 1, init := some (i + 1) }
    | none => { s with init := some (i + 1) }

def getConnection (s : State ι K) (t : ι) (isClosed : Bool) (r : Connect K) :
    Option (State ι K) :=
  match s.connList with
  | con :: rest =>
    if isClosed then
      let s := { s with connList := rest, deleted := s.deleted ++ [con] }
      (s.createConnection r).map fun (s, con) =>
        match con with
        | some _ => s.answer t (.connection con)
        | none => { s with curSize := s.curSize - 1 }.answer t (.connection con)
    else some ({ s with connList := rest }.answer t (.connection (some con)))
  | [] =>
    if s.curSize < s.maxSize then
      (s.createConnection r).map fun (s, con) =>
        match con with
        | some _ => { s with curSize := s.curSize + 1 }.answer t (.connection con)
        | none => s.answer t (.connection none)
    else some (s.answer t (.connection none))

def releaseConnection (s : State ι K) (t : ι) : Option K → State ι K
  | some k => { s with connList := s.connList ++ [k] }.answer t .released
  | none => s.answer t .released

def critical (s : State ι K) (t : ι) (isClosed : Bool) (r : Connect K) : Op K → Option (State ι K)
  | .getConnection => s.getConnection t isClosed r
  | .releaseConnection conn => some (s.releaseConnection t conn)

end State

namespace Caller

variable {K : Type u} [DecidableEq K]

def call? (c : Caller K) : Op K → Option (Caller K)
  | .getConnection => some ⟨.inside .getConnection, c.held⟩
  | .releaseConnection (some k) =>
    if k ∈ c.held then some ⟨.inside (.releaseConnection (some k)), c.held.erase k⟩ else none
  | .releaseConnection none => some ⟨.inside (.releaseConnection none), c.held⟩

def back (c : Caller K) : Res K → Caller K
  | .connection con => ⟨.idle, c.held ++ con.toList⟩
  | .released => ⟨.idle, c.held⟩

end Caller

variable {ι : Type v} {K : Type u} [DecidableEq ι] [DecidableEq K]

def step (s : State ι K) : Act ι K → Option (State ι K)
  | .initConnection r =>
    match s.init with
    | some i => if i < s.iInitialSize then s.initConnection i r else none
    | none => none
  | .constructed =>
    match s.init with
    | some i => if i < s.iInitialSize then none else some { s with init := none }
    | none => none
  | .call t op =>
    match s.init, (s.callers t).pc with
    | none, .idle => ((s.callers t).call? op).map (s.setCaller t)
    | _, _ => none
  | .run t isClosed r =>
    match (s.callers t).pc with
    | .inside op => s.critical t isClosed r op
    | _ => none
  | .ret t =>
    match (s.callers t).pc with
    | .returned r => some (s.setCaller t ((s.callers t).back r))
    | _ => none

inductive Step (s : State ι K) : Act ι K → State ι K → Prop
  | init {i k} : s.init = some i → i < s.iInitialSize → k ∉ s.made →
      Step s (.initConnection (.connection k)) { s with
        connList := s.connList ++ [k]
        curSize := s.curSize + 1
        init := some (i + 1)
        made := s.made ++ [k] }
  | initFailed {i r} : s.init = some i → i < s.iInitialSize →
      Step s (.initConnection r) { s with init := some (i + 1) }
  | constructed {i} : s.init = some i → ¬ i < s.iInitialSize →
      Step s .constructed { s with init := none }
  | call {t op c} : s.init = none → (s.callers t).pc = .idle →
      (s.callers t).call? op = some c → Step s (.call t op) (s.setCaller t c)
  | reuse {t r con rest} : (s.callers t).pc = .inside .getConnection →
      s.connList = con :: rest →
      Step s (.run t false r) ({ s with connList := rest }.answer t (.connection (some con)))
  | replace {t con rest k} : (s.callers t).pc = .inside .getConnection →
      s.connList = con :: rest → k ∉ s.made →
      Step s (.run t true (.connection k))
        ({ s with
            connList := rest
            made := s.made ++ [k]
            deleted := s.deleted ++ [con] }.answer t (.connection (some k)))
  | discard {t r con rest} : (s.callers t).pc = .inside .getConnection →
      s.connList = con :: rest →
      Step s (.run t true r)
        ({ s with
            connList := rest
            curSize := s.curSize - 1
            deleted := s.deleted ++ [con] }.answer t (.connection none))
  | create {t closed k} : (s.callers t).pc = .inside .getConnection →
      s.connList = [] → s.curSize < s.maxSize → k ∉ s.made →
      Step s (.run t closed (.connection k))
        ({ s with curSize := s.curSize + 1, made := s.made ++ [k] }.answer t (.connection (some k)))
  | fail {t closed r} : (s.callers t).pc = .inside .getConnection → s.connList = [] →
      Step s (.run t closed r) (s.answer t (.connection none))
  | release {t closed r conn} :
      (s.callers t).pc = .inside (.releaseConnection conn) →
      Step s (.run t closed r) (s.releaseConnection t conn)
  | ret {t r} : (s.callers t).pc = .returned r →
      Step s (.ret t) (s.setCaller t ((s.callers t).back r))

omit [DecidableEq ι] in
theorem createConnection_cases {s s' : State ι K} {r : Connect K} {conn : Option K}
    (h : s.createConnection r = some (s', conn)) :
    (∃ k, r = .connection k ∧ k ∉ s.made ∧ s' = { s with made := s.made ++ [k] } ∧
      conn = some k) ∨ (s' = s ∧ conn = none) := by
  cases r with
  | connection k =>
    simp only [State.createConnection] at h
    split at h
    case isTrue => cases h
    case isFalse fresh => cases h; exact .inl ⟨k, rfl, fresh, rfl, rfl⟩
  | sqlException => cases h; exact .inr ⟨rfl, rfl⟩
  | runtimeError => cases h; exact .inr ⟨rfl, rfl⟩

theorem step_of_initConnection {s s' : State ι K} {i : Int} {r : Connect K}
    (hi : s.init = some i) (more : i < s.iInitialSize) (h : s.initConnection i r = some s') :
    Step s (.initConnection r) s' := by
  obtain ⟨⟨u, conn⟩, hu, rfl⟩ := Option.map_eq_some_iff.mp h
  obtain ⟨k, rfl, fresh, rfl, rfl⟩ | ⟨rfl, rfl⟩ := createConnection_cases hu
  · exact .init hi more fresh
  · exact .initFailed hi more

theorem step_of_getConnection {s s' : State ι K} {t : ι} {closed : Bool} {r : Connect K}
    (hop : (s.callers t).pc = .inside .getConnection)
    (h : s.getConnection t closed r = some s') : Step s (.run t closed r) s' := by
  simp only [State.getConnection] at h
  split at h
  case h_1 con rest hq =>
    split at h
    case isTrue stale =>
      subst stale
      obtain ⟨⟨u, conn⟩, hu, rfl⟩ := Option.map_eq_some_iff.mp h
      obtain ⟨k, rfl, fresh, rfl, rfl⟩ | ⟨rfl, rfl⟩ := createConnection_cases hu
      · exact .replace hop hq fresh
      · exact .discard hop hq
    case isFalse healthy =>
      rw [Bool.not_eq_true] at healthy
      subst healthy
      cases h
      exact .reuse hop hq
  case h_2 hq =>
    split at h
    case isTrue room =>
      obtain ⟨⟨u, conn⟩, hu, rfl⟩ := Option.map_eq_some_iff.mp h
      obtain ⟨k, rfl, fresh, rfl, rfl⟩ | ⟨rfl, rfl⟩ := createConnection_cases hu
      · exact .create hop hq room fresh
      · exact .fail hop hq
    case isFalse => cases h; exact .fail hop hq

theorem step_cases {s s' : State ι K} {a : Act ι K} (h : step s a = some s') : Step s a s' := by
  cases a with
  | initConnection r =>
    simp only [step] at h
    split at h
    case h_1 i hi =>
      split at h
      case isTrue more => exact step_of_initConnection hi more h
      case isFalse => cases h
    case h_2 => cases h
  | constructed =>
    simp only [step] at h
    split at h
    case h_1 i hi =>
      split at h
      case isTrue => cases h
      case isFalse last => cases h; exact .constructed hi last
    case h_2 => cases h
  | call t op =>
    simp only [step] at h
    split at h
    case h_1 hi ht =>
      obtain ⟨c, hc, rfl⟩ := Option.map_eq_some_iff.mp h
      exact .call hi ht hc
    case h_2 => cases h
  | run t closed r =>
    simp only [step] at h
    split at h
    case h_1 op ht =>
      cases op with
      | getConnection => exact step_of_getConnection ht h
      | releaseConnection conn => cases h; exact .release ht
    case h_2 => cases h
  | ret t =>
    simp only [step] at h
    split at h
    case h_1 r ht => cases h; exact .ret ht
    case h_2 => cases h

end Leano.ConnPool
