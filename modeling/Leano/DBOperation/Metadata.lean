import Leano.DBOperation.Defs
import Leano.Lib.Watch

namespace Leano.DBOperation

open Leano.Lib

abbrev Queried := Watched State (Option (List String))

def seeQuery (latest : Option (List String)) (s : State) : Call → Option (List String)
  | .executeQuery create (.result columns) =>
    if (s.executeQuery create (.result columns)).any Prod.fst then some columns else latest
  | _ => latest

def Current (v : Queried) : Prop :=
  ∀ columns, v.seen = some columns →
    (v.state.getColumnCount true true).map Prod.fst = some (columns.length : Int) ∧
    ∀ index, (v.state.getColumnName index true).map Prod.fst =
      some (columnLabel columns (index + 1))

/-- When `executeQuery` returns a result set nothing is cached, or metadata with the same columns;
and it does not return NULL after a query that has succeeded. -/
def FreshMeta (v : Queried) : Call → Prop
  | .executeQuery create (.result columns) =>
    v.state.state ≠ none ∨ create = true →
      v.state.rsMeta = none ∨ v.state.rsMeta.map v.state.columns = some columns
  | .executeQuery create .null => v.state.state ≠ none ∨ create = true → v.seen = none
  | _ => True

instance (v : Queried) : (c : Call) → Decidable (FreshMeta v c)
  | .executeQuery _ (.result _) => inferInstanceAs (Decidable (_ → _))
  | .executeQuery _ .null => inferInstanceAs (Decidable (_ → _))
  | .executeQuery _ .throws => isTrue trivial
  | .setDatabase _ _ => isTrue trivial
  | .execute _ _ => isTrue trivial
  | .executeUpdate _ _ _ => isTrue trivial
  | .getColumnCount _ _ => isTrue trivial
  | .getColumnName _ _ => isTrue trivial
  | .getNext => isTrue trivial

def State.metaColumns (s : State) : Option (List String) := (s.rsMeta.or s.res).map s.columns

structure Made (s : State) : Prop where
  res : ∀ k, s.res = some k → k < s.heap.made
  rsMeta : ∀ k, s.rsMeta = some k → k < s.heap.made

variable {s t : State} {v v' : Queried} {c : Call}

theorem columnLabel_ext {a b : List String}
    (h : ∀ index : Int, columnLabel a (index + 1) = columnLabel b (index + 1)) : a = b := by
  refine List.ext_getElem? fun n => ?_
  have inside : (1 : Int) ≤ n + 1 := by omega
  simpa [columnLabel, inside] using h n

theorem getColumnName_eq (index : Int) : (s.getColumnName index true).map Prod.fst =
    s.metaColumns.map fun columns => columnLabel columns (index + 1) := by
  unfold State.getColumnName State.cacheMeta State.metaColumns
  cases s.rsMeta with
  | some k => rfl
  | none => cases s.res <;> rfl

theorem getColumnCount_eq (set : s.res ≠ none) : (s.getColumnCount true true).map Prod.fst =
    s.metaColumns.map fun columns => (columns.length : Int) := by
  obtain ⟨k, hk⟩ := Option.ne_none_iff_exists'.mp set
  unfold State.getColumnCount State.cacheMeta State.metaColumns
  rw [hk]
  cases s.rsMeta <;> rfl

theorem getColumnCount_of_null (null : s.res = none) :
    (s.getColumnCount true true).map Prod.fst = some (-1) := by
  unfold State.getColumnCount
  rw [null]
  rfl

theorem current_iff : Current v ↔ ∀ columns, v.seen = some columns →
    v.state.res ≠ none ∧ v.state.metaColumns = some columns := by
  refine forall_congr' fun columns => imp_congr_right fun _ => ?_
  constructor
  · rintro ⟨count, names⟩
    have set : v.state.res ≠ none := by
      intro null
      rw [getColumnCount_of_null null] at count
      have negative := Option.some.inj count
      omega
    refine ⟨set, ?_⟩
    have names' : ∀ index : Int, v.state.metaColumns.map (fun columns =>
        columnLabel columns (index + 1)) = some (columnLabel columns (index + 1)) :=
      fun index => (getColumnName_eq index).symm.trans (names index)
    obtain ⟨held, hheld, -⟩ := Option.map_eq_some_iff.mp (names' 0)
    rw [hheld] at names' ⊢
    exact congrArg some (columnLabel_ext fun index => Option.some.inj (names' index))
  · rintro ⟨set, held⟩
    refine ⟨?_, fun index => ?_⟩
    · rw [getColumnCount_eq set, held]
      rfl
    · rw [getColumnName_eq, held]
      rfl

namespace Made

theorem of_le (h : Made s) (res : t.res = s.res) (rsMeta : t.rsMeta = s.rsMeta)
    (made : s.heap.made ≤ t.heap.made) : Made t where
  res := by rw [res]; exact fun k hk => (h.res k hk).trans_le made
  rsMeta := by rw [rsMeta]; exact fun k hk => (h.rsMeta k hk).trans_le made

theorem ready {create : Bool} (h : Made s) (ready : s.Ready create t) : Made t := by
  obtain ⟨-, rfl⟩ | ⟨-, -, rfl⟩ := ready
  · exact h
  · exact h.of_le rfl rfl (Nat.le_succ _)

theorem caches (h : Made s) (caches : s.Caches t) : Made t := by
  obtain rfl | ⟨-, -, rfl⟩ := caches
  · exact h
  · exact ⟨h.res, h.res⟩

theorem fetch {answer : Answer} (h : Made s) : Made (s.fetch answer).2 := by
  cases answer with
  | throws => exact h
  | null => exact ⟨nofun, h.rsMeta⟩
  | result columns =>
    refine ⟨?_, fun k hk => (h.rsMeta k hk).trans (Nat.lt_succ_self _)⟩
    rintro k ⟨⟩
    exact Nat.lt_succ_self _

theorem step (h : Made s) (hs : step s c = some t) : Made t := by
  by_cases query : ∃ create answer, c = .executeQuery create answer
  · obtain ⟨create, answer, rfl⟩ := query
    obtain ⟨r, hr, rfl⟩ := Option.map_eq_some_iff.mp hs
    obtain ⟨-, rfl⟩ | ⟨-, t, ready, rfl⟩ := State.executeQuery_cases hr
    · exact h
    · exact (h.ready ready).fetch
  · have other : ∀ create answer, c ≠ .executeQuery create answer :=
      fun create answer eq => query ⟨create, answer, eq⟩
    obtain caches | ⟨res, rsMeta, -, made⟩ := State.other_of_step other hs
    · exact h.caches caches
    · exact h.of_le res rsMeta made

end Made

theorem metaColumns_ready {create : Bool} (ready : s.Ready create t) :
    t.metaColumns = s.metaColumns ∧ t.res = s.res ∧ t.rsMeta = s.rsMeta ∧
      t.columns = s.columns := by
  obtain ⟨-, rfl⟩ | ⟨-, -, rfl⟩ := ready
  · exact ⟨rfl, rfl, rfl, rfl⟩
  · exact ⟨rfl, rfl, rfl, rfl⟩

theorem Current.same (h : Current v) (seen : v'.seen = v.seen) (res : v'.state.res = v.state.res)
    (held : v'.state.metaColumns = v.state.metaColumns) : Current v' := by
  rw [current_iff] at h ⊢
  rw [seen, res, held]
  exact h

theorem metaColumns_caches (caches : s.Caches t) :
    t.metaColumns = s.metaColumns ∧ t.res = s.res := by
  obtain rfl | ⟨unset, set, rfl⟩ := caches
  · exact ⟨rfl, rfl⟩
  · refine ⟨?_, rfl⟩
    unfold State.metaColumns
    rw [unset]
    cases s.res <;> rfl

theorem current_result {columns : List String} (made : Made t) :
    Current ⟨t.newResult columns, some columns⟩ ↔
      t.rsMeta = none ∨ t.rsMeta.map t.columns = some columns := by
  have held : (t.newResult columns).metaColumns = (t.rsMeta.map t.columns).or (some columns) := by
    unfold State.metaColumns State.newResult
    cases hm : t.rsMeta with
    | none => exact congrArg some (Function.update_self ..)
    | some k => exact congrArg some (Function.update_of_ne (made.rsMeta k hm).ne ..)
  rw [current_iff]
  change (∀ c, some columns = some c → some t.heap.made ≠ none ∧ _ = some c) ↔ _
  rw [held]
  cases t.rsMeta with
  | none => simp
  | some k => simp

theorem current_null {latest : Option (List String)} (null : t.res = none) :
    Current ⟨t, latest⟩ ↔ latest = none := by
  rw [current_iff]
  constructor
  · intro now
    by_contra some
    obtain ⟨columns, hc⟩ := Option.ne_none_iff_exists'.mp some
    exact (now columns hc).1 null
  · intro none columns hc
    cases none.symm.trans hc

theorem Current.executeQuery {create : Bool} {answer : Answer} (h : Current v) (made : Made v.state)
    (hs : watch step seeQuery v (.executeQuery create answer) = some v') :
    Current v' ↔ FreshMeta v (.executeQuery create answer) := by
  obtain ⟨t, ht, rfl⟩ := eq_of_watch hs
  obtain ⟨r, hr, rfl⟩ := Option.map_eq_some_iff.mp ht
  obtain ⟨never, rfl⟩ | ⟨reached, t, ready, rfl⟩ := State.executeQuery_cases hr
  · cases answer with
    | throws => exact iff_of_true (h.same rfl rfl rfl) trivial
    | null => exact iff_of_true (h.same rfl rfl rfl) fun some => absurd some never
    | result columns =>
      refine iff_of_true (h.same ?_ rfl rfl) fun some => absurd some never
      simp [seeQuery, hr]
  · obtain ⟨held, res, rsMeta, cols⟩ := metaColumns_ready ready
    cases answer with
    | throws => exact iff_of_true (h.same rfl res held) trivial
    | null =>
      exact (current_null rfl).trans ⟨fun none _ => none, fun none => none reached⟩
    | result columns =>
      have now : seeQuery v.seen v.state (.executeQuery create (.result columns)) =
          some columns := by
        simp [seeQuery, hr, State.fetch]
      rw [now]
      refine (current_result (made.ready ready)).trans ?_
      rw [rsMeta, cols]
      exact ⟨fun fresh _ => fresh, fun fresh => fresh reached⟩

theorem current_step (h : Current v) (made : Made v.state)
    (hs : watch step seeQuery v c = some v') : Current v' ↔ FreshMeta v c := by
  by_cases query : ∃ create answer, c = .executeQuery create answer
  · obtain ⟨create, answer, rfl⟩ := query
    exact h.executeQuery made hs
  obtain ⟨t, ht, rfl⟩ := eq_of_watch hs
  have unseen : seeQuery v.seen v.state c = v.seen := by
    cases c with
    | executeQuery => exact absurd ⟨_, _, rfl⟩ query
    | _ => rfl
  have ok : FreshMeta v c := by
    cases c with
    | executeQuery => exact absurd ⟨_, _, rfl⟩ query
    | _ => trivial
  refine iff_of_true ?_ ok
  have other : ∀ create answer, c ≠ .executeQuery create answer :=
    fun create answer eq => query ⟨create, answer, eq⟩
  obtain caches | ⟨res, rsMeta, columns, -⟩ := State.other_of_step other ht
  · obtain ⟨held, res⟩ := metaColumns_caches caches
    exact h.same unseen res held
  · refine h.same unseen res ?_
    rw [State.metaColumns, res, rsMeta, columns]
    rfl

/-- While every call is `FreshMeta`, the getters answer the columns of the last query that
succeeded; and the next call keeps that exactly if it is `FreshMeta`, too. -/
theorem columns_current {conn : Bool}
    (h : ReachIf (watch step seeQuery) FreshMeta ⟨State.init conn, none⟩ v) :
    Current v ∧ ∀ c v', watch step seeQuery v c = some v' → (Current v' ↔ FreshMeta v c) := by
  have now : Current v ∧ Made v.state := by
    refine h.invariant (I := fun v => Current v ∧ Made v.state) ⟨nofun, nofun, nofun⟩ ?_
    rintro v c v' - ⟨current, made⟩ ok hs
    obtain ⟨t, ht, rfl⟩ := eq_of_watch hs
    exact ⟨(current_step current made hs).mpr ok, made.step ht⟩
  exact ⟨now.1, fun c v' hs => current_step now.1 now.2 hs⟩

theorem columns_current_of_two : ∃ v : Queried,
    (v.seen = some ["a", "b"] ∧ v.state.res = some 2 ∧ v.state.rsMeta = some 1) ∧
    Current v ∧ ∀ c v', watch step seeQuery v c = some v' → (Current v' ↔ FreshMeta v c) := by
  obtain ⟨v, hv, hp⟩ := exists_reachIf (watch step seeQuery) FreshMeta ⟨State.init true, none⟩
    [.setDatabase true true, .executeQuery false (.result ["a", "b"]), .getColumnCount true true,
      .executeQuery false (.result ["a", "b"])]
    (fun v => decide (v.seen = some ["a", "b"] ∧ v.state.res = some 2 ∧ v.state.rsMeta = some 1))
    (by decide)
  exact ⟨v, of_decide_eq_true hp, columns_current hv⟩

/-- The second query has two columns, the getter answers one. -/
theorem columns_stale : ¬ ∀ v : Queried,
    Reach (watch step seeQuery) ⟨State.init true, none⟩ v → Current v := by
  intro all
  obtain ⟨v, hv, hp⟩ := exists_reach (watch step seeQuery) ⟨State.init true, none⟩
    [.setDatabase true true, .executeQuery false (.result ["a"]), .getColumnCount true true,
      .executeQuery false (.result ["b", "c"])]
    (fun v => decide (v.seen = some ["b", "c"] ∧
      (v.state.getColumnCount true true).map Prod.fst = some 1)) (by decide)
  obtain ⟨seen, one⟩ := of_decide_eq_true hp
  have count := (all v hv _ seen).1
  rw [one] at count
  exact absurd count (by decide)

end Leano.DBOperation
