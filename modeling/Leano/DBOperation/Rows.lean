import Leano.DBOperation.Metadata
import Leano.Lib.Replies
import Mathlib.Algebra.Group.Nat.Defs

/-! All of `DBOperation` with what its functions return, the rows of a result set included. To its
user it is a cursor in the latest result, with the labels of the first that was asked about. -/

namespace Leano.DBOperation

open Leano.Lib

structure Row where
  getInt : String → Option Int
  getString : String → Option String

/-- The result sets with their rows and the row each is at, 0 before the first `next`. -/
structure Session where
  base : State
  rows : Nat → List Row
  row : Nat → Nat

inductive Request where
  | setDatabase (setSchema createStatement : Bool)
  | execute (createStatement execute : Bool)
  | executeQuery (createStatement : Bool) (answer : Answer) (rows : List Row)
  | executeUpdate (prepareStatement executeUpdate commit : Bool)
  | rollBack (rollback releaseSavepoint : Bool)
  | getColumnCount (getMetaData getColumnCount : Bool)
  | getRowCount
  | getColumnName (index : Int) (getMetaData : Bool)
  | getValueInt (columnname : String)
  | getValueString (columnname : String)
  | getNext

inductive Reply where
  | flag (b : Bool)
  | number (n : Option Int)
  | text (s : Option String)
  deriving DecidableEq

def toInt (n : Nat) : Int := Int.bmod n (2 ^ 32)

def current? (rows : List Row) (row : Nat) : Option Row := if row = 0 then none else rows[row - 1]?

namespace Session

def init (conn : Bool) : Session := ⟨.init conn, fun _ => [], fun _ => 0⟩

def current (s : Session) (res : Nat) : Option Row := current? (s.rows res) (s.row res)

def executeQuery (s : Session) (createStatement : Bool) (answer : Answer) (rows : List Row) :
    Option (Bool × Session) :=
  (s.base.executeQuery createStatement answer).map fun r =>
    if r.1 = true then
      let res := r.2.res.getD 0
      (true, ⟨r.2, Function.update s.rows res rows, Function.update s.row res 0⟩)
    else (false, { s with base := r.2 })

def rollBack (s : Session) (rollback releaseSavepoint : Bool) : Option (Bool × Session) :=
  if s.base.conn = false then none else some (rollback && releaseSavepoint, s)

def getRowCount (s : Session) : Option (Int × Session) :=
  s.base.res.map fun res => (toInt (s.rows res).length, s)

def getValueInt (s : Session) (columnname : String) : Option (Option Int × Session) :=
  s.base.res.map fun res => ((s.current res).bind fun row => row.getInt columnname, s)

def getValueString (s : Session) (columnname : String) : Option (String × Session) :=
  s.base.res.map fun res =>
    (((s.current res).bind fun row => row.getString columnname).getD "", s)

def getNext (s : Session) : Option (Bool × Session) :=
  s.base.res.map fun res =>
    (decide (s.row res < (s.rows res).length),
      { s with row := Function.update s.row res (s.row res + 1) })

def onBase {β : Type} (s : Session) (x : Option (β × State)) : Option (β × Session) :=
  x.map fun r => (r.1, { s with base := r.2 })

def step (s : Session) : Request → Option (Reply × Session)
  | .setDatabase schema create =>
    (s.onBase (s.base.setDatabase schema create)).map (Prod.map .flag id)
  | .execute create runs => (s.onBase (s.base.execute create runs)).map (Prod.map .flag id)
  | .executeQuery create answer rows => (s.executeQuery create answer rows).map (Prod.map .flag id)
  | .executeUpdate prepare update commit =>
    (s.onBase (s.base.executeUpdate prepare update commit)).map (Prod.map .flag id)
  | .rollBack rollback release => (s.rollBack rollback release).map (Prod.map .flag id)
  | .getColumnCount md count =>
    (s.onBase (s.base.getColumnCount md count)).map
      (Prod.map (fun n => .number (some n)) id)
  | .getRowCount => s.getRowCount.map (Prod.map (fun n => .number (some n)) id)
  | .getColumnName index md =>
    (s.onBase (s.base.getColumnName index md)).map (Prod.map .text id)
  | .getValueInt column => (s.getValueInt column).map (Prod.map .number id)
  | .getValueString column =>
    (s.getValueString column).map (Prod.map (fun text => .text (some text)) id)
  | .getNext => s.getNext.map (Prod.map .flag id)

end Session

structure Table where
  columns : List String
  rows : List Row
  row : Nat

/-- What the user of a `DBOperation` has to know of its past. -/
structure Reader where
  conn : Bool
  statement : Bool
  result : Option Table
  labels : Option (List String)

namespace Reader

def init (conn : Bool) : Reader := ⟨conn, false, none, none⟩

def connected {β : Type} (r : Reader) (x : β × Reader) : Option (β × Reader) :=
  if r.conn = false then none else some x

def prepared (r : Reader) (create : Bool) : Option (Bool × Reader) :=
  if r.statement = true then some (true, r)
  else r.connected (create, { r with statement := create })

def setDatabase (r : Reader) (setSchema createStatement : Bool) : Option (Bool × Reader) :=
  r.connected (setSchema && createStatement,
    { r with statement := r.statement || (setSchema && createStatement) })

def execute (r : Reader) (createStatement execute : Bool) : Option (Bool × Reader) :=
  (r.prepared createStatement).map (Prod.map (fun b => b && execute) id)

def answered (r : Reader) (rows : List Row) : Answer → Bool × Reader
  | .throws => (false, r)
  | .null => (false, { r with result := none })
  | .result columns => (true, { r with result := some ⟨columns, rows, 0⟩ })

def executeQuery (r : Reader) (createStatement : Bool) (answer : Answer) (rows : List Row) :
    Option (Bool × Reader) :=
  (r.prepared createStatement).map fun q =>
    if q.1 = false then (false, q.2) else q.2.answered rows answer

def executeUpdate (r : Reader) (prepareStatement executeUpdate commit : Bool) :
    Option (Bool × Reader) :=
  r.connected (prepareStatement && (executeUpdate && commit), r)

def rollBack (r : Reader) (rollback releaseSavepoint : Bool) : Option (Bool × Reader) :=
  r.connected (rollback && releaseSavepoint, r)

def asked (r : Reader) (getMetaData : Bool) : Reader :=
  { r with labels := r.labels.or (if getMetaData then r.result.map Table.columns else none) }

def getColumnCount (r : Reader) (getMetaData getColumnCount : Bool) : Option (Int × Reader) :=
  match r.result with
  | none => some (-1, r)
  | some _ => some ((r.asked getMetaData).labels.elim (-1)
      (fun labels => if getColumnCount = true then labels.length else -1), r.asked getMetaData)

def getColumnName (r : Reader) (index : Int) (getMetaData : Bool) :
    Option (Option String × Reader) :=
  (r.labels.or (r.result.map Table.columns)).map fun _ =>
    ((r.asked getMetaData).labels.bind fun labels => columnLabel labels (index + 1),
      r.asked getMetaData)

def getRowCount (r : Reader) : Option (Int × Reader) :=
  r.result.map fun t => (toInt t.rows.length, r)

def getValueInt (r : Reader) (columnname : String) : Option (Option Int × Reader) :=
  r.result.map fun t => ((current? t.rows t.row).bind fun row => row.getInt columnname, r)

def getValueString (r : Reader) (columnname : String) : Option (String × Reader) :=
  r.result.map fun t =>
    (((current? t.rows t.row).bind fun row => row.getString columnname).getD "", r)

def getNext (r : Reader) : Option (Bool × Reader) :=
  r.result.map fun t =>
    (decide (t.row < t.rows.length), { r with result := some { t with row := t.row + 1 } })

def step (r : Reader) : Request → Option (Reply × Reader)
  | .setDatabase schema create => (r.setDatabase schema create).map (Prod.map .flag id)
  | .execute create runs => (r.execute create runs).map (Prod.map .flag id)
  | .executeQuery create answer rows => (r.executeQuery create answer rows).map (Prod.map .flag id)
  | .executeUpdate prepare update commit =>
    (r.executeUpdate prepare update commit).map (Prod.map .flag id)
  | .rollBack rollback release => (r.rollBack rollback release).map (Prod.map .flag id)
  | .getColumnCount md count =>
    (r.getColumnCount md count).map (Prod.map (fun n => .number (some n)) id)
  | .getRowCount => r.getRowCount.map (Prod.map (fun n => .number (some n)) id)
  | .getColumnName index md => (r.getColumnName index md).map (Prod.map .text id)
  | .getValueInt column => (r.getValueInt column).map (Prod.map .number id)
  | .getValueString column =>
    (r.getValueString column).map (Prod.map (fun text => .text (some text)) id)
  | .getNext => r.getNext.map (Prod.map .flag id)

end Reader

variable {s : Session} {r : Reader}

def Session.table (s : Session) (res : Nat) : Table :=
  ⟨s.base.columns res, s.rows res, s.row res⟩

/-- What the members of a `DBOperation` say to its user. -/
structure Shows (s : Session) (r : Reader) : Prop where
  conn : s.base.conn = r.conn
  statement : s.base.state.isSome = r.statement
  result : s.base.res.map s.table = r.result
  labels : s.base.rsMeta.map s.base.columns = r.labels
  made : Made s.base

theorem shows_init (conn : Bool) : Shows (.init conn) (.init conn) where
  conn := rfl
  statement := rfl
  result := rfl
  labels := rfl
  made := ⟨fun _ hk => (by cases hk), fun _ hk => (by cases hk)⟩

theorem Shows.reads (h : Shows s r) {β : Type} {f : Nat → β × Session} {g : Table → β × Reader}
    (same : ∀ res, s.base.res = some res → Agree Shows (some (f res)) (some (g (s.table res)))) :
    Agree Shows (s.base.res.map f) (r.result.map g) := by
  rw [← h.result]
  cases hr : s.base.res with
  | none => exact agree_none
  | some res => exact same res hr

theorem Shows.connected (h : Shows s r) {β : Type} {b : β} {s' : Session} {r' : Reader}
    (later : Shows s' r') :
    Agree Shows (if s.base.conn = false then none else some (b, s')) (r.connected (b, r')) := by
  unfold Reader.connected
  rw [h.conn]
  split
  · exact agree_none
  · exact agree_some later

theorem Shows.newStatement (h : Shows s r) :
    Shows { s with base := s.base.newStatement } { r with statement := true } where
  conn := h.conn
  statement := rfl
  result := h.result
  labels := h.labels
  made := h.made.of_le rfl rfl (Nat.le_succ _)

theorem Shows.prepared (h : Shows s r) (create : Bool) :
    Agree Shows (s.onBase (s.base.ensureStatement create)) (r.prepared create) := by
  have statement := h.statement
  have conn := h.conn
  simp only [Session.onBase, State.ensureStatement, Reader.prepared, Reader.connected]
  cases hs : s.base.state with
  | some k =>
    rw [hs] at statement
    rw [← statement, Option.isSome_some, if_pos rfl]
    exact agree_some h
  | none =>
    rw [hs, Option.isSome_none] at statement
    rw [← statement, if_neg Bool.false_ne_true, conn]
    by_cases off : r.conn = false
    · rw [if_pos off, if_pos off]
      exact agree_none
    · rw [if_neg off, if_neg off]
      cases create with
      | true => exact agree_some h.newStatement
      | false => exact agree_some (by rw [statement]; exact h)

theorem Shows.newResult (h : Shows s r) (columns : List String) (rows : List Row) :
    Shows ⟨s.base.newResult columns, Function.update s.rows s.base.heap.made rows,
      Function.update s.row s.base.heap.made 0⟩ { r with result := some ⟨columns, rows, 0⟩ } where
  conn := h.conn
  statement := h.statement
  result := by simp [State.newResult, Session.table]
  labels := by
    rw [← h.labels]
    refine Option.map_congr fun k hk => ?_
    exact Function.update_of_ne (h.made.rsMeta k hk).ne _ _
  made := show Made (s.base.fetch (.result columns)).2 from h.made.fetch

theorem Shows.setDatabase (h : Shows s r) (schema create : Bool) :
    Agree Shows (s.onBase (s.base.setDatabase schema create))
      (r.setDatabase schema create) := by
  have set : ∀ b s', Shows s' { r with statement := r.statement || b } →
      Agree Shows (if s.base.conn = false then none else some (b, s'))
        (r.connected (b, { r with statement := r.statement || b })) :=
    fun _ _ later => h.connected later
  unfold Session.onBase State.setDatabase Reader.setDatabase
  by_cases off : s.base.conn = false
  · simp [Reader.connected, ← h.conn, off, agree_none]
  · by_cases both : schema = true ∧ create = true
    · obtain ⟨rfl, rfl⟩ := both
      simpa [off] using set true _ (by simpa using h.newStatement)
    · have not : (schema && create) = false := by simpa using both
      simpa [off, both, not] using set false _ (by simpa using h)

theorem Shows.execute (h : Shows s r) (create runs : Bool) :
    Agree Shows (s.onBase (s.base.execute create runs)) (r.execute create runs) := by
  have agree := Agree.map (h.prepared create) fun b => b && runs
  unfold Reader.execute
  simp only [Session.onBase, State.execute, Option.map_map] at agree ⊢
  exact agree

theorem Shows.null (h : Shows s r) :
    Shows { s with base := { s.base with res := none } } { r with result := none } where
  conn := h.conn
  statement := h.statement
  result := rfl
  labels := h.labels
  made := show Made (s.base.fetch .null).2 from h.made.fetch

theorem Shows.executeQuery (h : Shows s r) (create : Bool) (answer : Answer) (rows : List Row) :
    Agree Shows (s.executeQuery create answer rows) (r.executeQuery create answer rows) := by
  have agree := h.prepared create
  unfold Session.onBase at agree
  unfold Session.executeQuery State.executeQuery Reader.executeQuery
  cases hq : s.base.ensureStatement create with
  | none =>
    rw [hq] at agree
    rw [agree.of_none]
    exact agree_none
  | some q =>
    rw [hq] at agree
    obtain ⟨r', hr, later⟩ := agree.of_some
    rw [hr]
    obtain ⟨ready, base⟩ := q
    cases ready with
    | false => exact agree_some later
    | true =>
      cases answer with
      | throws => exact agree_some later
      | null => exact agree_some later.null
      | result columns => exact agree_some (later.newResult columns rows)

theorem Shows.executeUpdate (h : Shows s r) (prepare update commit : Bool) :
    Agree Shows (s.onBase (s.base.executeUpdate prepare update commit))
      (r.executeUpdate prepare update commit) := by
  obtain ⟨heap, free, made, -⟩ := Heap.free_of_live (h := s.base.heap.make) Heap.live_make
  have later : Shows { s with base := { s.base with heap := heap } } r :=
    ⟨h.conn, h.statement, h.result, h.labels,
      h.made.of_le rfl rfl (Nat.le_of_lt (Nat.lt_of_succ_le made.ge))⟩
  unfold Session.onBase State.executeUpdate Reader.executeUpdate Reader.connected
  rw [← h.conn, free]
  by_cases off : s.base.conn = false
  · rw [if_pos off, if_pos off]
    exact agree_none
  · rw [if_neg off, if_neg off]
    cases prepare with
    | false => exact agree_some h
    | true => exact agree_some later

theorem Shows.cacheMeta (h : Shows s r) (md : Bool) :
    Agree Shows
      (s.onBase ((s.base.cacheMeta md).map fun q => (q.1.map q.2.columns, q.2)))
      ((r.labels.or (r.result.map Table.columns)).map fun _ =>
        ((r.asked md).labels, r.asked md)) := by
  obtain ⟨conn, statement, result, labels⟩ := r
  obtain ⟨rfl, rfl, rfl, rfl, made⟩ := h
  simp only [Session.onBase, State.cacheMeta, Reader.asked]
  cases hm : s.base.rsMeta with
  | some k => exact agree_some ⟨rfl, rfl, rfl, by rw [hm]; rfl, made⟩
  | none =>
    cases hres : s.base.res with
    | none => exact agree_none
    | some k =>
      cases md with
      | true =>
        refine agree_some ⟨rfl, rfl, rfl, rfl, ?_, ?_⟩
        · exact fun j hj => made.res j (hres.trans hj)
        · exact fun j hj => made.res j (hres.trans hj)
      | false => exact agree_some ⟨rfl, rfl, congrArg (Option.map s.table) hres,
          congrArg (Option.map s.base.columns) hm, made⟩

theorem Shows.labelled (h : Shows s r) (md : Bool) {β : Type} (f : Option (List String) → β) :
    Agree Shows (s.onBase ((s.base.cacheMeta md).map fun q => (f (q.1.map q.2.columns), q.2)))
      ((r.labels.or (r.result.map Table.columns)).map fun _ =>
        (f (r.asked md).labels, r.asked md)) := by
  have agree := (h.cacheMeta md).map f
  simp only [Session.onBase, Option.map_map] at agree ⊢
  exact agree

theorem Shows.getColumnCount (h : Shows s r) (md count : Bool) :
    Agree Shows (s.onBase (s.base.getColumnCount md count)) (r.getColumnCount md count) := by
  have result := h.result
  unfold State.getColumnCount Reader.getColumnCount
  cases hres : s.base.res with
  | none =>
    rw [hres] at result
    rw [← result]
    exact agree_some h
  | some k =>
    have agree := h.labelled md fun labels =>
      labels.elim (-1 : Int) fun labels => if count = true then labels.length else -1
    rw [hres] at result
    rw [← result] at agree ⊢
    simp only [Option.elim_map] at agree
    cases hl : r.labels with
    | none => rw [hl] at agree; exact agree
    | some labels => rw [hl] at agree; exact agree

theorem Shows.getColumnName (h : Shows s r) (index : Int) (md : Bool) :
    Agree Shows (s.onBase (s.base.getColumnName index md)) (r.getColumnName index md) := by
  have agree := h.labelled md fun labels =>
    labels.bind fun labels => columnLabel labels (index + 1)
  simp only [Option.bind_map] at agree
  exact agree

theorem Shows.getRowCount (h : Shows s r) : Agree Shows s.getRowCount r.getRowCount :=
  h.reads fun _ _ => agree_some h

theorem Shows.getValueInt (h : Shows s r) (column : String) :
    Agree Shows (s.getValueInt column) (r.getValueInt column) :=
  h.reads fun _ _ => agree_some h

theorem Shows.getValueString (h : Shows s r) (column : String) :
    Agree Shows (s.getValueString column) (r.getValueString column) :=
  h.reads fun _ _ => agree_some h

theorem Shows.getNext (h : Shows s r) : Agree Shows s.getNext r.getNext := by
  refine h.reads fun res hres => agree_some ⟨h.conn, h.statement, ?_, h.labels, h.made⟩
  simp [hres, Session.table]

/-- One call: the same answer, or undefined both. -/
theorem agree_of_step (s : Session) (r : Reader) (q : Request) (h : Shows s r) :
    Agree Shows (s.step q) (r.step q) := by
  cases q with
  | setDatabase schema create => exact (h.setDatabase schema create).map _
  | execute create runs => exact (h.execute create runs).map _
  | executeQuery create answer rows => exact (h.executeQuery create answer rows).map _
  | executeUpdate prepare update commit => exact (h.executeUpdate prepare update commit).map _
  | rollBack rollback release => exact Agree.map (h.connected h) _
  | getColumnCount md count => exact (h.getColumnCount md count).map _
  | getRowCount => exact h.getRowCount.map _
  | getColumnName index md => exact (h.getColumnName index md).map _
  | getValueInt column => exact (h.getValueInt column).map _
  | getValueString column => exact (h.getValueString column).map _
  | getNext => exact h.getNext.map _

/-- Whatever is called on a `DBOperation`, and in whatever order, it answers as a cursor in the
latest result with the labels of the first that was asked about; and it uses a null pointer where
there is no connection, or no result, to use. -/
theorem replies_as_cursor (conn : Bool) (calls : List Request) :
    replies Session.step (.init conn) calls = replies Reader.step (.init conn) calls :=
  replies_eq agree_of_step (shows_init conn) calls

def Request.queries : Request → Bool
  | .executeQuery _ _ _ => true
  | _ => false

def Request.isNext : Request → Bool
  | .getNext => true
  | _ => false

def nexts (calls : List Request) : Nat := calls.countP Request.isNext

def Reader.place (r : Reader) : Option (List Row × Nat) := r.result.map fun t => (t.rows, t.row)

theorem eq_of_connected {β : Type} {r r₁ r' : Reader} {b c : β}
    (h : r.connected (b, r₁) = some (c, r')) : r' = r₁ := by
  unfold Reader.connected at h
  split at h
  · cases h
  · cases h
    rfl

theorem exists_of_map {β γ σ : Type*} {x : Option (β × σ)} {f : β → γ} {c : γ} {t : σ}
    (h : x.map (Prod.map f id) = some (c, t)) : ∃ b, x = some (b, t) := by
  obtain ⟨z, rfl, same⟩ := Option.map_eq_some_iff.mp h
  exact ⟨z.1, congrArg (fun t => some (z.1, t)) (congrArg Prod.snd same)⟩

theorem place_prepared {r r' : Reader} {create b : Bool} (h : r.prepared create = some (b, r')) :
    r'.place = r.place := by
  unfold Reader.prepared at h
  split at h
  · cases h
    rfl
  · rw [eq_of_connected h]
    rfl

theorem place_of_step {r r' : Reader} {q : Request} {b : Reply} (h : r.step q = some (b, r'))
    (quiet : q.queries = false) :
    r'.place = r.place.map fun p => (p.1, p.2 + q.isNext.toNat) := by
  have same : q.isNext = false → r'.place = r.place →
      r'.place = r.place.map fun p => (p.1, p.2 + q.isNext.toNat) := by
    intro stays same
    rw [same, stays]
    exact Option.map_id'.symm
  -- a function that reads the result and leaves the reader as it is
  have reads : ∀ {β : Type} {f : Table → β} {b : β},
      (r.result.map fun t => (f t, r)) = some (b, r') → r'.place = r.place := by
    intro β f b hb
    obtain ⟨t, -, eq⟩ := Option.map_eq_some_iff.mp hb
    cases eq
    rfl
  cases q with
  | setDatabase =>
    obtain ⟨b, hb⟩ := exists_of_map h
    exact same rfl (by rw [eq_of_connected hb]; rfl)
  | execute =>
    obtain ⟨b, hb⟩ := exists_of_map h
    obtain ⟨b, hb⟩ := exists_of_map hb
    exact same rfl (place_prepared hb)
  | executeQuery => cases quiet
  | executeUpdate =>
    obtain ⟨b, hb⟩ := exists_of_map h
    exact same rfl (by rw [eq_of_connected hb])
  | rollBack =>
    obtain ⟨b, hb⟩ := exists_of_map h
    exact same rfl (by rw [eq_of_connected hb])
  | getColumnCount =>
    obtain ⟨b, hb⟩ := exists_of_map h
    unfold Reader.getColumnCount at hb
    split at hb
    · cases hb
      exact same rfl rfl
    · cases hb
      exact same rfl rfl
  | getColumnName =>
    obtain ⟨b, hb⟩ := exists_of_map h
    obtain ⟨labels, -, eq⟩ := Option.map_eq_some_iff.mp hb
    cases eq
    exact same rfl rfl
  | getRowCount =>
    obtain ⟨b, hb⟩ := exists_of_map h
    exact same rfl (reads hb)
  | getValueInt =>
    obtain ⟨b, hb⟩ := exists_of_map h
    exact same rfl (reads hb)
  | getValueString =>
    obtain ⟨b, hb⟩ := exists_of_map h
    exact same rfl (reads hb)
  | getNext =>
    obtain ⟨b, hb⟩ := exists_of_map h
    obtain ⟨t, ht, eq⟩ := Option.map_eq_some_iff.mp hb
    cases eq
    simp [Reader.place, ht, Request.isNext]

theorem place_of_query {r r' : Reader} {create : Bool} {columns : List String} {rows : List Row}
    (h : r.executeQuery create (.result columns) rows = some (true, r')) :
    r'.place = some (rows, 0) := by
  obtain ⟨⟨ready, r₁⟩, -, eq⟩ := Option.map_eq_some_iff.mp h
  cases ready with
  | false => cases eq
  | true =>
    cases eq
    rfl

theorem Shows.place {s : Session} {r : Reader} (h : Shows s r) :
    r.place = s.base.res.map fun res => (s.rows res, s.row res) := by
  rw [Reader.place, ← h.result, Option.map_map]
  rfl

/-- A query has answered true, and no other has been made since: the values read are those of the
row whose number is that of the calls of `getNext`, and these answer true as long as there is one;
whatever else has been called on the object, before the query or since. -/
theorem reads_latest {conn create : Bool} {before calls : List Request} {bs cs : List Reply}
    {s t u : Session} {columns : List String} {rows : List Row}
    (past : answers Session.step (.init conn) before = some (bs, s))
    (query : s.executeQuery create (.result columns) rows = some (true, t))
    (later : answers Session.step t calls = some (cs, u))
    (quiet : ∀ c ∈ calls, c.queries = false) :
    u.getRowCount = some (toInt rows.length, u) ∧
      (∀ column, u.getValueInt column =
        some ((current? rows (nexts calls)).bind fun row => row.getInt column, u)) ∧
      (∀ column, u.getValueString column =
        some (((current? rows (nexts calls)).bind fun row => row.getString column).getD "", u)) ∧
      u.getNext.map Prod.fst = some (decide (nexts calls < rows.length)) := by
  obtain ⟨r, -, hr⟩ := answers_of_agree agree_of_step (shows_init conn) past
  obtain ⟨r₁, query', hr₁⟩ := Agree.of_some (query ▸ hr.executeQuery create (.result columns) rows)
  obtain ⟨r₂, later', hr₂⟩ := answers_of_agree agree_of_step hr₁ later
  have place : (∀ c ∈ calls, c.queries = false) → r₂.place = some (rows, nexts calls) := by
    refine invariant_of_answers (I := fun calls r => (∀ c ∈ calls, c.queries = false) →
      r.place = some (rows, nexts calls)) [] (fun _ => place_of_query query') later' ?_
    intro calls r q b r' ih hs quiet
    obtain ⟨quiet, now⟩ := List.forall_mem_append.mp quiet
    rw [place_of_step hs (now q (List.mem_singleton_self q)), ih quiet]
    cases hq : q.isNext <;> simp [nexts, hq]
  have place := (hr₂.place).symm.trans (place quiet)
  obtain ⟨res, hres, eq⟩ := Option.map_eq_some_iff.mp place
  obtain ⟨hrows, hrow⟩ := Prod.mk.inj eq
  unfold Session.getRowCount Session.getValueInt Session.getValueString Session.getNext
    Session.current
  simp [hres, hrows, hrow]

theorem reads_latest_of_two : ∃ u : Session,
    (answers Session.step (.init true) [.executeQuery true (.result ["b"])
      [⟨fun _ => none, fun _ => some "0"⟩], .getNext, .executeQuery true (.result ["a"])
      [⟨fun _ => none, fun _ => some "1"⟩, ⟨fun _ => none, fun _ => some "2"⟩],
      .getNext, .getColumnCount true true, .getNext]).map Prod.snd = some u ∧
    u.getValueString "a" = some ("2", u) ∧ u.getNext.map Prod.fst = some false := by
  obtain ⟨-, -, text, next⟩ := reads_latest
    (rfl : answers Session.step (.init true) [.executeQuery true (.result ["b"])
      [⟨fun _ => none, fun _ => some "0"⟩], .getNext] = some _)
    (rfl : Session.executeQuery _ true (.result ["a"])
      [⟨fun _ => none, fun _ => some "1"⟩, ⟨fun _ => none, fun _ => some "2"⟩] = some (true, _))
    (rfl : answers Session.step _ [.getNext, .getColumnCount true true, .getNext] = some _)
    (by simp [Request.queries])
  exact ⟨_, rfl, text "a", next⟩

end Leano.DBOperation
