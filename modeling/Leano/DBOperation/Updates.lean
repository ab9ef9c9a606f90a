import Leano.DBOperation.Defs
import Leano.Lib.Transaction

universe u v

namespace Leano.DBOperation

open Leano.Lib

structure Update (U : Type u) where
  sql : U
  prepareStatement : Bool
  executeUpdate : Bool
  commit : Bool
  deriving DecidableEq

namespace Update

variable {U : Type u}

def executes (c : Update U) : Bool := c.prepareStatement && c.executeUpdate

def returns (c : Update U) : Bool := c.executes && c.commit

def strands (c : Update U) : Bool := c.executes && !c.commit

end Update

variable {U : Type u} {D : Type v}

def executeUpdate (apply : U → D → D) (db : Session D) (c : Update U) : Bool × Session D :=
  if c.prepareStatement = false then (false, db)
  else if c.executeUpdate = false then (false, db)
  else
    let db := db.exec (apply c.sql)
    if c.commit = false then (false, db) else (true, db.commit)

def executeUpdates (apply : U → D → D) (db : Session D) (calls : List (Update U)) :
    List U × Session D :=
  calls.foldl (fun r c =>
    let answer := executeUpdate apply r.2 c
    (if answer.1 = true then r.1 ++ [c.sql] else r.1, answer.2)) ([], db)

/-- With auto-commit no update is executed whose commit throws; without it no call returns true
after such an update. -/
def Unstranded (autoCommit : Bool) (calls : List (Update U)) : Prop :=
  if autoCommit = true then ∀ c ∈ calls, c.strands = false
  else calls.Pairwise fun c later => c.strands = true → later.returns = false

def executed (calls : List (Update U)) : List U := (calls.filter Update.executes).map Update.sql

def returned (calls : List (Update U)) : List U := (calls.filter Update.returns).map Update.sql

def published (autoCommit : Bool) (calls : List (Update U)) : List U :=
  if autoCommit = true then executed calls
  else executed (calls.rdropWhile fun c => !c.returns)

variable {c : Update U} {calls : List (Update U)} {autoCommit : Bool}

theorem executeUpdate_returns {s : State} {r : Bool × State} (apply : U → D → D) (db : Session D)
    (h : s.executeUpdate c.prepareStatement c.executeUpdate c.commit = some r) :
    (executeUpdate apply db c).1 = r.1 := by
  unfold State.executeUpdate at h
  unfold executeUpdate
  split at h
  · cases h
  · split at h
    case isTrue no => cases h; rw [if_pos no]
    case isFalse yes =>
      obtain ⟨heap, -, rfl⟩ := Option.map_eq_some_iff.mp h
      rw [if_neg yes]
      cases c.executeUpdate <;> cases c.commit <;> rfl

inductive Executed (apply : U → D → D) (db : Session D) (c : Update U) : Bool × Session D → Prop
  | nothing : c.executes = false → c.returns = false → Executed apply db c (false, db)
  | stranded : c.executes = true → c.returns = false →
      Executed apply db c (false, db.exec (apply c.sql))
  | committed : c.executes = true → c.returns = true →
      Executed apply db c (true, (db.exec (apply c.sql)).commit)

theorem executeUpdate_executed (apply : U → D → D) (db : Session D) (c : Update U) :
    Executed apply db c (executeUpdate apply db c) := by
  obtain ⟨sql, prepares, executes, commits⟩ := c
  cases prepares with
  | false => exact .nothing rfl rfl
  | true =>
    cases executes with
    | false => exact .nothing rfl rfl
    | true =>
      cases commits with
      | false => exact .stranded rfl rfl
      | true => exact .committed rfl rfl

theorem strands_iff : c.strands = true ↔ c.executes = true ∧ c.returns = false := by
  unfold Update.strands Update.returns
  cases c.executes <;> cases c.commit <;> decide

theorem strands_of_not_executes (h : c.executes = false) : c.strands = false := by
  rw [Update.strands, h, Bool.false_and]

theorem strands_of_returns (h : c.returns = true) : c.strands = false := by
  refine Bool.eq_false_iff.mpr fun strands => ?_
  cases h.symm.trans (strands_iff.mp strands).2

section lists

theorem executed_snoc :
    executed (calls ++ [c]) = executed calls ++ if c.executes = true then [c.sql] else [] := by
  rw [executed, List.filter_append, List.map_append, ← executed]
  cases h : c.executes <;> simp [h]

theorem returned_snoc :
    returned (calls ++ [c]) = returned calls ++ if c.returns = true then [c.sql] else [] := by
  rw [returned, List.filter_append, List.map_append, ← returned]
  cases h : c.returns <;> simp [h]

theorem published_auto : published true calls = executed calls := if_pos rfl

theorem published_of_returns (h : c.returns = true) :
    published autoCommit (calls ++ [c]) = executed (calls ++ [c]) := by
  unfold published
  split
  · rfl
  · rw [List.rdropWhile_concat_neg _ _ _ (by simp [h])]

theorem published_of_not_returns (h : c.returns = false) :
    published false (calls ++ [c]) = published false calls := by
  simp only [published, Bool.false_eq_true, if_false]
  rw [List.rdropWhile_concat_pos _ _ _ (by simp [h])]

theorem executed_eq_returned_iff :
    executed calls = returned calls ↔ ∀ c ∈ calls, c.strands = false := by
  have fewer (calls : List (Update U)) : (returned calls).length ≤ (executed calls).length := by
    rw [returned, executed, List.length_map, List.length_map]
    refine (List.monotone_filter_right calls fun c returns => ?_).length_le
    exact (Bool.and_eq_true_iff.mp returns).1
  induction calls with
  | nil => simp [executed, returned]
  | cons c calls ih =>
    rw [List.forall_mem_cons]
    cases executes : c.executes with
    | false =>
      have silent : c.returns = false := by rw [Update.returns, executes, Bool.false_and]
      rw [executed, returned, List.filter_cons_of_neg (by simp [executes]),
        List.filter_cons_of_neg (by simp [silent])]
      exact ih.trans (and_iff_right (strands_of_not_executes executes)).symm
    | true =>
      cases returns : c.returns with
      | false =>
        refine iff_of_false (fun same => ?_) fun none => ?_
        · have length := congrArg List.length same
          rw [executed, returned, List.filter_cons_of_pos executes,
            List.filter_cons_of_neg (by simp [returns])] at length
          have := fewer calls
          simp only [executed, returned, List.length_map, List.length_cons] at this length
          omega
        · cases (strands_iff.mpr ⟨executes, returns⟩).symm.trans none.1
      | true =>
        rw [executed, returned, List.filter_cons_of_pos executes, List.filter_cons_of_pos returns,
          List.map_cons, List.map_cons, List.cons_inj_right]
        exact ih.trans (and_iff_right (strands_of_returns returns)).symm

theorem published_eq_returned_iff :
    published autoCommit calls = returned calls ↔ Unstranded autoCommit calls := by
  cases autoCommit with
  | true =>
    rw [published_auto, Unstranded, if_pos rfl]
    exact executed_eq_returned_iff
  | false =>
    rw [Unstranded, if_neg Bool.false_ne_true]
    induction calls using List.reverseRecOn with
    | nil => simp [published, returned, executed]
    | append_singleton calls c ih =>
      simp only [List.pairwise_append, List.pairwise_singleton, List.mem_singleton, forall_eq,
        true_and]
      cases returns : c.returns with
      | false =>
        rw [published_of_not_returns returns, returned_snoc, returns]
        simpa using ih
      | true =>
        rw [published_of_returns returns, executed_eq_returned_iff]
        simp only [List.forall_mem_append, List.forall_mem_singleton, strands_of_returns returns,
          and_true, Bool.true_eq_false, imp_false, Bool.not_eq_true]
        refine ⟨fun none => ⟨?_, none⟩, And.right⟩
        exact List.pairwise_of_forall_mem_list fun c hc _ _ strands => by
          cases (none c hc).symm.trans strands

end lists

/-- The session after any calls: all that was executed is in the transaction. -/
theorem executeUpdates_eq (apply : U → D → D) (d : D) (calls : List (Update U)) :
    executeUpdates apply (.init autoCommit d) calls =
      (returned calls, ⟨autoCommit, replay apply (published autoCommit calls) d,
        replay apply (executed calls) d⟩) := by
  induction calls using List.reverseRecOn with
  | nil => cases autoCommit <;> rfl
  | append_singleton calls c ih =>
    have last : executeUpdates apply (.init autoCommit d) (calls ++ [c]) =
        let r := executeUpdates apply (.init autoCommit d) calls
        let answer := executeUpdate apply r.2 c
        (if answer.1 = true then r.1 ++ [c.sql] else r.1, answer.2) := List.foldl_append
    rw [last, ih, returned_snoc, executed_snoc]
    dsimp only
    have step := executeUpdate_executed apply
      ⟨autoCommit, replay apply (published autoCommit calls) d, replay apply (executed calls) d⟩ c
    generalize executeUpdate apply _ c = answer at step ⊢
    cases step with
    | nothing silent returns =>
      cases autoCommit with
      | true =>
        simp [published_auto, executed_snoc, silent, returns]
      | false =>
        simp [published_of_not_returns returns, silent, returns]
    | stranded executes returns =>
      cases autoCommit with
      | true =>
        simp [published_auto, executed_snoc, executes, returns, Session.exec, replay_snoc]
      | false =>
        simp [published_of_not_returns returns, executes, returns, Session.exec, replay_snoc]
    | committed executes returns =>
      simp [published_of_returns returns, executed_snoc, executes, returns, Session.exec,
        Session.commit, replay_snoc]

/-- Whatever the updates do to a database: it is as the calls that have returned true have it. -/
def Atomic (autoCommit : Bool) (calls : List (Update U)) : Prop :=
  ∀ (D : Type u) (apply : U → D → D) (d : D),
    (executeUpdates apply (.init autoCommit d) calls).2.committed =
      replay apply (executeUpdates apply (.init autoCommit d) calls).1 d

/-- A failed `ExecuteUpdate` has no effect as long as no update is stranded that becomes durable. -/
theorem atomic_iff (autoCommit : Bool) (calls : List (Update U)) :
    Atomic autoCommit calls ↔ Unstranded autoCommit calls := by
  rw [← published_eq_returned_iff]
  constructor
  · intro atomic
    have history := atomic (List U) (fun u h => h ++ [u]) []
    rw [executeUpdates_eq] at history
    simpa only [replay_history] using history
  · intro same D apply d
    rw [executeUpdates_eq, same]

/-- One update with auto-commit whose commit throws, and one without that the next call commits. -/
theorem not_atomic_of_stranded : ¬ (∀ calls : List (Update Nat), Atomic true calls) ∧
    ¬ ∀ calls : List (Update Nat), Atomic false calls := by
  constructor
  · intro all
    exact absurd (all [⟨1, true, true, false⟩] (List Nat) (fun u h => h ++ [u]) []) (by decide)
  · intro all
    exact absurd (all [⟨1, true, true, false⟩, ⟨2, true, true, true⟩] (List Nat)
      (fun u h => h ++ [u]) []) (by decide)

end Leano.DBOperation
