import Leano.Config.Init
import Leano.Lib.Last

namespace Leano.Config

open Leano.Lib

inductive Key where
  | fid
  | taskID
  | engineType
  | taskType
  | taskShuffle
  | threadNum
  | server
  | cephPath
  | dbDataHost
  | dbDataUser
  | dbDataPwd
  | dbTaskHost
  | dbTaskUser
  | dbTaskPwd
  deriving DecidableEq

namespace Key

def Val : Key → Type
  | .taskShuffle => Int
  | .threadNum => Int
  | _ => String

def get (cfg : FdConf) : (k : Key) → k.Val
  | .fid => cfg.fid
  | .taskID => cfg.taskID
  | .engineType => cfg.engineType
  | .taskType => cfg.taskType
  | .taskShuffle => cfg.taskShuffle
  | .threadNum => cfg.threadNum
  | .server => cfg.server
  | .cephPath => cfg.cephPath
  | .dbDataHost => cfg.dbDataHost
  | .dbDataUser => cfg.dbDataUser
  | .dbDataPwd => cfg.dbDataPwd
  | .dbTaskHost => cfg.dbTaskHost
  | .dbTaskUser => cfg.dbTaskUser
  | .dbTaskPwd => cfg.dbTaskPwd

def put (cfg : FdConf) : (k : Key) → k.Val → FdConf
  | .fid, a => { cfg with fid := a }
  | .taskID, a => { cfg with taskID := a }
  | .engineType, a => { cfg with engineType := a }
  | .taskType, a => { cfg with taskType := a }
  | .taskShuffle, a => { cfg with taskShuffle := a }
  | .threadNum, a => { cfg with threadNum := a }
  | .server, a => { cfg with server := a }
  | .cephPath, a => { cfg with cephPath := a }
  | .dbDataHost, a => { cfg with dbDataHost := a }
  | .dbDataUser, a => { cfg with dbDataUser := a }
  | .dbDataPwd, a => { cfg with dbDataPwd := a }
  | .dbTaskHost, a => { cfg with dbTaskHost := a }
  | .dbTaskUser, a => { cfg with dbTaskUser := a }
  | .dbTaskPwd, a => { cfg with dbTaskPwd := a }

theorem get_put (k : Key) (a : k.Val) (cfg : FdConf) : get (put cfg k a) k = a := by
  cases k <;> rfl

theorem put_get (k : Key) (cfg : FdConf) : put cfg k (get cfg k) = cfg := by
  cases k <;> rfl

def slot (k : Key) : Slot FdConf k.Val where
  get cfg := get cfg k
  set a cfg := put cfg k a
  get_set := get_put k
  set_get := put_get k

def read (jsoncpp : Jsoncpp) (v : Json) : (k : Key) → Option k.Val
  | .taskShuffle => (v.index "shuffle").bind jsoncpp.asInt
  | .threadNum => (v.index "thread_num").bind jsoncpp.asInt
  | .dbDataHost => (v.index "dbdata_host").bind jsoncpp.asString
  | .dbDataUser => (v.index "dbdata_user").bind jsoncpp.asString
  | .dbDataPwd => (v.index "dbdata_pwd").bind jsoncpp.asString
  | .dbTaskHost => (v.index "dbtask_host").bind jsoncpp.asString
  | .dbTaskUser => (v.index "dbtask_user").bind jsoncpp.asString
  | .dbTaskPwd => (v.index "dbtask_pwd").bind jsoncpp.asString
  | .fid | .taskID | .engineType | .taskType | .server | .cephPath => none

def inFile : List Key :=
  [.taskShuffle, .threadNum, .dbDataHost, .dbDataUser, .dbDataPwd, .dbTaskHost, .dbTaskUser,
    .dbTaskPwd]

def preset : (k : Key) → Option k.Val
  | .fid => some ""
  | .taskID => some ""
  | .engineType => some "unknown"
  | .taskType => some "unknown"
  | .server => some "127.0.0.1"
  | .cephPath => some ""
  | .taskShuffle | .threadNum | .dbDataHost | .dbDataUser | .dbDataPwd => none
  | .dbTaskHost | .dbTaskUser | .dbTaskPwd => none

end Key

def set (cfg : FdConf) (k : Key) (a : k.Val) : FdConf := k.slot.set a cfg

def setFid (cfg : FdConf) (a : String) : FdConf := set cfg .fid a

def setTaskID (cfg : FdConf) (a : String) : FdConf := set cfg .taskID a

def setEngineType (cfg : FdConf) (a : String) : FdConf := set cfg .engineType a

def setTaskType (cfg : FdConf) (a : String) : FdConf := set cfg .taskType a

def setTaskShuffle (cfg : FdConf) (a : Int) : FdConf := set cfg .taskShuffle a

def setThreadNum (cfg : FdConf) (a : Int) : FdConf := set cfg .threadNum a

def setServer (cfg : FdConf) (a : String) : FdConf := set cfg .server a

def setCephPath (cfg : FdConf) (a : String) : FdConf := set cfg .cephPath a

def setDBDataHost (cfg : FdConf) (a : String) : FdConf := set cfg .dbDataHost a

def setDBDataUser (cfg : FdConf) (a : String) : FdConf := set cfg .dbDataUser a

def setDBDataPwd (cfg : FdConf) (a : String) : FdConf := set cfg .dbDataPwd a

def setDBTaskHost (cfg : FdConf) (a : String) : FdConf := set cfg .dbTaskHost a

def setDBTaskUser (cfg : FdConf) (a : String) : FdConf := set cfg .dbTaskUser a

def setDBTaskPwd (cfg : FdConf) (a : String) : FdConf := set cfg .dbTaskPwd a

inductive Call where
  | init (content : Content)
  | set (k : Key) (a : k.Val)

def call (jsoncpp : Jsoncpp) (cfg : FdConf) : Call → FdConf
  | .init content => (init jsoncpp cfg content).2
  | .set k a => set cfg k a

section writes

variable (jsoncpp : Jsoncpp) (k : Key)

/-- What `init` writes to a member: what it reads for it if everything before that can be read, and
the constants if everything can. -/
def Content.writes : Content → Option k.Val
  | .unreadable => none
  | .notJson => none
  | .json v =>
    if k ∈ Key.inFile then
      if ∀ k' ∈ Key.inFile.takeWhile fun k' => k' ≠ k, (k'.read jsoncpp v).isSome then
        k.read jsoncpp v
      else none
    else if ∀ k' ∈ Key.inFile, (k'.read jsoncpp v).isSome then k.preset
    else none

def Call.writes : Call → Option k.Val
  | .init content => content.writes jsoncpp k
  | .set k' a => if h : k' = k then some (h ▸ a) else none

end writes

variable {jsoncpp : Jsoncpp} {v : Json} {cfg : FdConf} {k k' : Key} {calls : List Call}

theorem get_set_of_ne (ne : k ≠ k') (a : k'.Val) :
    k.slot.get (k'.slot.set a cfg) = k.slot.get cfg := by
  cases k <;> cases k' <;> first | rfl | exact absurd rfl ne

def Key.write (jsoncpp : Jsoncpp) (v : Json) (k : Key) : Write FdConf :=
  ⟨k.Val, k.slot, k.read jsoncpp v⟩

theorem assignments_eq : assignments jsoncpp v = Key.inFile.map (Key.write jsoncpp v) := rfl

theorem inFile_eq (h : k ∈ Key.inFile) :
    ∃ post, Key.inFile = (Key.inFile.takeWhile fun k' => k' ≠ k) ++ k :: post := by
  cases k <;> first | exact ⟨_, rfl⟩ | simp [Key.inFile] at h

theorem apart_of_ne (ne : k ≠ k') : (k.write jsoncpp v).Apart (k'.write jsoncpp v) :=
  fun a _ => get_set_of_ne ne a

theorem get_init_read (h : k ∈ Key.inFile) : k.slot.get (init jsoncpp cfg (.json v)).2 =
    k.slot.get (writeAll (assignments jsoncpp v) cfg).2 := by
  simp only [init]
  generalize writeAll (assignments jsoncpp v) cfg = written
  obtain ⟨all, cfg'⟩ := written
  cases all with
  | false => rfl
  | true => cases k <;> first | rfl | simp [Key.inFile] at h

theorem get_init_preset (h : k ∉ Key.inFile) : k.slot.get (init jsoncpp cfg (.json v)).2 =
    if (writeAll (assignments jsoncpp v) cfg).1 = true then k.preset.getD (k.slot.get cfg)
    else k.slot.get cfg := by
  have same : k.slot.get (writeAll (assignments jsoncpp v) cfg).2 = k.slot.get cfg := by
    refine get_writeAll (w := k.write jsoncpp v) ?_
    rw [assignments_eq, List.forall_mem_map]
    intro k' hk'
    exact apart_of_ne fun same => h (same ▸ hk')
  simp only [init]
  generalize writeAll (assignments jsoncpp v) cfg = written at same
  obtain ⟨all, cfg'⟩ := written
  cases all with
  | false => exact same
  | true => cases k <;> first | rfl | exact absurd (by decide) h

theorem get_assignments (h : k ∈ Key.inFile) :
    k.slot.get (writeAll (assignments jsoncpp v) cfg).2 =
      if ∀ k' ∈ Key.inFile.takeWhile fun k' => k' ≠ k, (k'.read jsoncpp v).isSome then
        (k.read jsoncpp v).getD (k.slot.get cfg)
      else k.slot.get cfg := by
  obtain ⟨post, eq⟩ := inFile_eq h
  have once : Key.inFile.Nodup := by decide
  rw [eq] at once
  have apart : ∀ k' ∈ post, k ≠ k' := by
    rintro k' hk' rfl
    exact (List.nodup_cons.mp (List.nodup_append.mp once).2.1).1 hk'
  have parts : Key.inFile.map (Key.write jsoncpp v) =
      (Key.inFile.takeWhile fun k' => k' ≠ k).map (Key.write jsoncpp v) ++
        k.write jsoncpp v :: post.map (Key.write jsoncpp v) := by
    rw [← List.map_cons, ← List.map_append, ← eq]
  rw [assignments_eq, parts]
  refine (get_writeAll_append (w := k.write jsoncpp v) ?_ ?_).trans ?_
  · rw [List.forall_mem_map]
    intro k' hk'
    exact apart_of_ne (Ne.symm (by simpa using List.mem_takeWhile_imp hk'))
  · rw [List.forall_mem_map]
    exact fun k' hk' => apart_of_ne (apart k' hk')
  · simp only [List.forall_mem_map]
    rfl

theorem get_init (content : Content) : k.slot.get (init jsoncpp cfg content).2 =
    (content.writes jsoncpp k).getD (k.slot.get cfg) := by
  cases content with
  | unreadable => rfl
  | notJson => rfl
  | json v =>
    rw [Content.writes]
    by_cases inFile : k ∈ Key.inFile
    · rw [if_pos inFile, get_init_read inFile, get_assignments inFile]
      split
      · rfl
      · rfl
    · have all : (writeAll (assignments jsoncpp v) cfg).1 = true ↔
          ∀ k' ∈ Key.inFile, (k'.read jsoncpp v).isSome := by
        rw [writeAll_fst, assignments_eq, List.forall_mem_map]
        rfl
      rw [if_neg inFile, get_init_preset inFile]
      simp only [all]
      split
      · rfl
      · rfl

theorem get_call (c : Call) :
    k.slot.get (call jsoncpp cfg c) = (c.writes jsoncpp k).getD (k.slot.get cfg) := by
  cases c with
  | init content => exact get_init content
  | set k' a =>
    rw [Call.writes]
    by_cases same : k' = k
    · subst same
      rw [dif_pos rfl]
      exact k'.slot.get_set a cfg
    · rw [dif_neg same]
      exact get_set_of_ne (Ne.symm same) a

theorem get_calls (calls : List Call) : k.slot.get (calls.foldl (call jsoncpp) cfg) =
    (last (Call.writes jsoncpp k) calls).getD (k.slot.get cfg) := by
  induction calls generalizing cfg with
  | nil => rfl
  | cons c calls ih => rw [List.foldl_cons, ih, last_cons, Option.getD_or, get_call]

theorem writes_of_success {content : Content} (h : (init jsoncpp cfg content).1 = true) (k : Key) :
    (content.writes jsoncpp k).isSome := by
  cases content with
  | unreadable => cases h
  | notJson => cases h
  | json v =>
    rw [(init_json jsoncpp v cfg).1, writeAll_fst, assignments_eq, List.forall_mem_map] at h
    have read : ∀ k' ∈ Key.inFile, (k'.read jsoncpp v).isSome := h
    rw [Content.writes]
    by_cases inFile : k ∈ Key.inFile
    · rw [if_pos inFile, if_pos fun k' hk' => read k' ((List.takeWhile_prefix _).subset hk')]
      exact read k inFile
    · rw [if_neg inFile, if_pos read]
      cases k <;> first | rfl | exact absurd (by decide) inFile

theorem eq_of_get {cfg' : FdConf} (h : ∀ k : Key, k.slot.get cfg = k.slot.get cfg') :
    cfg = cfg' := by
  cases cfg
  cases cfg'
  congr
  · exact h .fid
  · exact h .taskID
  · exact h .engineType
  · exact h .taskType
  · exact h .taskShuffle
  · exact h .threadNum
  · exact h .server
  · exact h .cephPath
  · exact h .dbDataHost
  · exact h .dbDataUser
  · exact h .dbDataPwd
  · exact h .dbTaskHost
  · exact h .dbTaskUser
  · exact h .dbTaskPwd

/-- A member holds what was last written to it, by a setter or by as much of an `init` as went
well; and nothing from before a successful `init` is left. -/
theorem last_write_wins (jsoncpp : Jsoncpp) (cfg : FdConf) (calls : List Call) :
    (∀ k : Key, k.slot.get (calls.foldl (call jsoncpp) cfg) =
      (last (Call.writes jsoncpp k) calls).getD (k.slot.get cfg)) ∧
    ∀ content cfg', (init jsoncpp (calls.foldl (call jsoncpp) cfg) content).1 = true →
      call jsoncpp (calls.foldl (call jsoncpp) cfg) (.init content) =
        call jsoncpp cfg' (.init content) := by
  refine ⟨fun k => get_calls calls, fun content cfg' success => eq_of_get fun k => ?_⟩
  obtain ⟨a, written⟩ := Option.isSome_iff_exists.mp (writes_of_success success k)
  rw [get_call, get_call, Call.writes, written]
  rfl

theorem last_write_wins_of_three :
    let cfg : FdConf := ⟨"", "", "", "", 0, 4, "", "", "", "", "", "", "", ""⟩
    let calls : List Call := [.set .threadNum (8 : Int),
      .init (.json (.object [("shuffle", .int 1), ("thread_num", .array [])]))]
    let half := calls.foldl (call .strict) cfg
    let anew : Call := .init (.json (.object []))
    (half.taskShuffle = 1 ∧ half.threadNum = 8) ∧
      call .strict half anew = call .strict cfg anew := by
  exact ⟨⟨rfl, rfl⟩, (last_write_wins .strict _ _).2 _ _ rfl⟩

end Leano.Config
