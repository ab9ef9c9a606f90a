import Leano.Lib.Heap
import Mathlib.Data.Finset.Attr
import Mathlib.Logic.Function.Basic

/-! The class `DBOperation` of `src/DBOperation.cpp`. What the driver answers is part of the call:
`false` stands for a call that throws `SQLException`. -/

namespace Leano.DBOperation

open Leano.Lib

inductive Answer where
  | throws
  | null
  | result (columns : List String)
  deriving DecidableEq

inductive Call where
  | setDatabase (setSchema createStatement : Bool)
  | execute (createStatement execute : Bool)
  | executeQuery (createStatement : Bool) (answer : Answer)
  | executeUpdate (prepareStatement executeUpdate commit : Bool)
  | getColumnCount (getMetaData getColumnCount : Bool)
  | getColumnName (index : Int) (getMetaData : Bool)
  | getNext
  deriving DecidableEq

/-- The members; the driver's objects are numbers in `heap`, and `columns` are the labels of a
result set. A `ResultSetMetaData` belongs to its result set. -/
structure State where
  conn : Bool
  state : Option Nat
  res : Option Nat
  rsMeta : Option Nat
  heap : Heap
  columns : Nat → List String

def columnLabel (columns : List String) (column : Int) : Option String :=
  if 1 ≤ column then columns[(column - 1).toNat]? else none

namespace State

def init (conn : Bool) : State where
  conn := conn
  state := none
  res := none
  rsMeta := none
  heap := Heap.empty
  columns := fun _ => []

def newStatement (s : State) : State :=
  { s with state := some s.heap.made, heap := s.heap.make }

def newResult (s : State) (columns : List String) : State :=
  { s with
    res := some s.heap.made
    heap := s.heap.make
    columns := Function.update s.columns s.heap.made columns }

def setDatabase (s : State) (setSchema createStatement : Bool) : Option (Bool × State) :=
  if s.conn = false then none
  else if setSchema = true ∧ createStatement = true then some (true, s.newStatement)
  else some (false, s)

def ensureStatement (s : State) (createStatement : Bool) : Option (Bool × State) :=
  match s.state with
  | some _ => some (true, s)
  | none =>
    if s.conn = false then none
    else if createStatement = true then some (true, s.newStatement)
    else some (false, s)

def execute (s : State) (createStatement execute : Bool) : Option (Bool × State) :=
  (s.ensureStatement createStatement).map fun r => (r.1 && execute, r.2)

def fetch (s : State) : Answer → Bool × State
  | .throws => (false, s)
  | .null => (false, { s with res := none })
  | .result columns => (true, s.newResult columns)

def executeQuery (s : State) (createStatement : Bool) (answer : Answer) : Option (Bool × State) :=
  (s.ensureStatement createStatement).map fun r =>
    if r.1 = false then (false, r.2) else r.2.fetch answer

def executeUpdate (s : State) (prepareStatement executeUpdate commit : Bool) :
    Option (Bool × State) :=
  if s.conn = false then none
  else if prepareStatement = false then some (false, s)
  else
    (s.heap.make.free s.heap.made).map fun heap =>
      (executeUpdate && commit, { s with heap := heap })

def cacheMeta (s : State) (getMetaData : Bool) : Option (Option Nat × State) :=
  match s.rsMeta with
  | some k => some (some k, s)
  | none =>
    s.res.map fun res =>
      if getMetaData = true then (some res, { s with rsMeta := some res }) else (none, s)

def getColumnCount (s : State) (getMetaData getColumnCount : Bool) : Option (Int × State) :=
  match s.res with
  | none => some (-1, s)
  | some _ =>
    (s.cacheMeta getMetaData).map fun r =>
      (r.1.elim (-1) fun k => if getColumnCount = true then (r.2.columns k).length else -1, r.2)

def getColumnName (s : State) (index : Int) (getMetaData : Bool) : Option (Option String × State) :=
  (s.cacheMeta getMetaData).map fun r =>
    (r.1.bind fun k => columnLabel (r.2.columns k) (index + 1), r.2)

def getNext (s : State) : Option State := s.res.map fun _ => s

def destructor (s : State) : Option Heap := do
  let heap ← s.res.elim (some s.heap) fun res => s.heap.free res
  s.state.elim (some heap) fun state => heap.free state

end State

/-- Undefined where a null pointer is used. -/
def step (s : State) : Call → Option State
  | .setDatabase schema create => (s.setDatabase schema create).map Prod.snd
  | .execute create runs => (s.execute create runs).map Prod.snd
  | .executeQuery create answer => (s.executeQuery create answer).map Prod.snd
  | .executeUpdate prepare update commit => (s.executeUpdate prepare update commit).map Prod.snd
  | .getColumnCount md count => (s.getColumnCount md count).map Prod.snd
  | .getColumnName index md => (s.getColumnName index md).map Prod.snd
  | .getNext => s.getNext

namespace State

variable {s t : State} {create : Bool} {r : Bool × State}

theorem ensureStatement_cases (h : s.ensureStatement create = some r) :
    s.state ≠ none ∧ r = (true, s) ∨
    s.state = none ∧ create = true ∧ r = (true, s.newStatement) ∨
    s.state = none ∧ create = false ∧ r = (false, s) := by
  unfold ensureStatement at h
  split at h
  case h_1 k set => cases h; exact .inl ⟨by rw [set]; exact Option.some_ne_none k, rfl⟩
  case h_2 unset =>
    split at h
    case isTrue => cases h
    case isFalse =>
      split at h
      case isTrue yes => cases h; exact .inr (.inl ⟨unset, yes, rfl⟩)
      case isFalse no => cases h; exact .inr (.inr ⟨unset, Bool.eq_false_iff.mpr no, rfl⟩)

def Ready (s : State) (create : Bool) (t : State) : Prop :=
  s.state ≠ none ∧ t = s ∨ s.state = none ∧ create = true ∧ t = s.newStatement

theorem executeQuery_cases {answer : Answer} (h : s.executeQuery create answer = some r) :
    ¬ (s.state ≠ none ∨ create = true) ∧ r = (false, s) ∨
    (s.state ≠ none ∨ create = true) ∧ ∃ t, s.Ready create t ∧ r = t.fetch answer := by
  obtain ⟨r', hr, rfl⟩ := Option.map_eq_some_iff.mp h
  obtain ⟨set, rfl⟩ | ⟨unset, yes, rfl⟩ | ⟨unset, no, rfl⟩ := ensureStatement_cases hr
  · exact .inr ⟨.inl set, s, .inl ⟨set, rfl⟩, rfl⟩
  · exact .inr ⟨.inr yes, _, .inr ⟨unset, yes, rfl⟩, rfl⟩
  · exact .inl ⟨by simp [unset, no], rfl⟩

theorem executeUpdate_cases {prepare update commit : Bool}
    (h : s.executeUpdate prepare update commit = some r) :
    r = (false, s) ∨ ∃ heap, s.heap.make.free s.heap.made = some heap ∧
      r = (update && commit, { s with heap := heap }) := by
  unfold executeUpdate at h
  split at h
  · cases h
  · split at h
    · cases h; exact .inl rfl
    · obtain ⟨heap, free, rfl⟩ := Option.map_eq_some_iff.mp h
      exact .inr ⟨heap, free, rfl⟩

theorem setDatabase_cases {schema : Bool} (h : s.setDatabase schema create = some r) :
    schema = true ∧ create = true ∧ r = (true, s.newStatement) ∨
    ¬ (schema = true ∧ create = true) ∧ r = (false, s) := by
  unfold setDatabase at h
  split at h
  · cases h
  · split at h
    case isTrue both => cases h; exact .inl ⟨both.1, both.2, rfl⟩
    case isFalse not => cases h; exact .inr ⟨not, rfl⟩

def Caches (s t : State) : Prop :=
  t = s ∨ s.rsMeta = none ∧ s.res ≠ none ∧ t = { s with rsMeta := s.res }

theorem caches_cacheMeta {md : Bool} {r : Option Nat × State} (h : s.cacheMeta md = some r) :
    Caches s r.2 := by
  unfold cacheMeta at h
  split at h
  case h_1 => cases h; exact .inl rfl
  case h_2 unset =>
    obtain ⟨res, set, rfl⟩ := Option.map_eq_some_iff.mp h
    cases md with
    | true => exact .inr ⟨unset, by rw [set]; exact Option.some_ne_none _, by rw [set]; rfl⟩
    | false => exact .inl rfl

theorem caches_getColumnCount {md count : Bool} {r : Int × State}
    (h : s.getColumnCount md count = some r) : Caches s r.2 := by
  unfold getColumnCount at h
  split at h
  case h_1 => cases h; exact .inl rfl
  case h_2 =>
    obtain ⟨r', hr, rfl⟩ := Option.map_eq_some_iff.mp h
    exact caches_cacheMeta hr

theorem caches_getColumnName {index : Int} {md : Bool} {r : Option String × State}
    (h : s.getColumnName index md = some r) : Caches s r.2 := by
  obtain ⟨r', hr, rfl⟩ := Option.map_eq_some_iff.mp h
  exact caches_cacheMeta hr

theorem other_of_step {c : Call} (other : ∀ create answer, c ≠ .executeQuery create answer)
    (hs : step s c = some t) : s.Caches t ∨
    t.res = s.res ∧ t.rsMeta = s.rsMeta ∧ t.columns = s.columns ∧ s.heap.made ≤ t.heap.made := by
  cases c with
  | setDatabase =>
    obtain ⟨r, hr, rfl⟩ := Option.map_eq_some_iff.mp hs
    obtain ⟨-, -, rfl⟩ | ⟨-, rfl⟩ := setDatabase_cases hr
    · exact .inr ⟨rfl, rfl, rfl, Nat.le_succ _⟩
    · exact .inl (.inl rfl)
  | execute =>
    obtain ⟨r, hr, rfl⟩ := Option.map_eq_some_iff.mp hs
    obtain ⟨r', hr', rfl⟩ := Option.map_eq_some_iff.mp hr
    obtain ⟨-, rfl⟩ | ⟨-, -, rfl⟩ | ⟨-, -, rfl⟩ := ensureStatement_cases hr'
    · exact .inl (.inl rfl)
    · exact .inr ⟨rfl, rfl, rfl, Nat.le_succ _⟩
    · exact .inl (.inl rfl)
  | executeQuery => exact absurd rfl (other _ _)
  | executeUpdate =>
    obtain ⟨r, hr, rfl⟩ := Option.map_eq_some_iff.mp hs
    obtain rfl | ⟨heap, free, rfl⟩ := executeUpdate_cases hr
    · exact .inl (.inl rfl)
    · obtain ⟨-, made, -⟩ := Heap.free_cases free
      exact .inr ⟨rfl, rfl, rfl, made ▸ Nat.le_succ _⟩
  | getColumnCount =>
    obtain ⟨r, hr, rfl⟩ := Option.map_eq_some_iff.mp hs
    exact .inl (caches_getColumnCount hr)
  | getColumnName =>
    obtain ⟨r, hr, rfl⟩ := Option.map_eq_some_iff.mp hs
    exact .inl (caches_getColumnName hr)
  | getNext =>
    obtain ⟨res, -, rfl⟩ := Option.map_eq_some_iff.mp hs
    exact .inl (.inl rfl)

end State

end Leano.DBOperation
