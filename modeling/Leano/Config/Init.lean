import Leano.Lib.Record

/-! `Config::init` of `src/config.cpp`. It writes each value into `cfg_` as soon as that is read, so
that a conversion that throws leaves the values of the keys before it behind. -/

namespace Leano.Config

open Leano.Lib

structure FdConf where
  fid : String
  taskID : String
  engineType : String
  taskType : String
  taskShuffle : Int
  threadNum : Int
  server : String
  cephPath : String
  dbDataHost : String
  dbDataUser : String
  dbDataPwd : String
  dbTaskHost : String
  dbTaskUser : String
  dbTaskPwd : String
  deriving DecidableEq

inductive Json where
  | null
  | bool (b : Bool)
  | int (n : Int)
  | real (mantissa exponent : Int)
  | string (str : String)
  | array (elements : List Json)
  | object (members : List (String × Json))

structure Jsoncpp where
  asInt : Json → Option Int
  asString : Json → Option String

inductive Content where
  | unreadable
  | notJson
  | json (v : Json)

/-- `v[key]`: a missing member is null, and a null value is taken for an empty object. The null that
it adds to `v` is under a key that is not read again. -/
def Json.index (v : Json) (key : String) : Option Json :=
  match v with
  | .null => some .null
  | .object members => some ((members.lookup key).getD .null)
  | _ => none

section init

variable (jsoncpp : Jsoncpp) (v : Json)

def int (key : String) (field : Slot FdConf Int) : Write FdConf :=
  ⟨Int, field, (v.index key).bind jsoncpp.asInt⟩

def string (key : String) (field : Slot FdConf String) : Write FdConf :=
  ⟨String, field, (v.index key).bind jsoncpp.asString⟩

open FdConf in
def assignments : List (Write FdConf) := [
  int jsoncpp v "shuffle"
    ⟨taskShuffle, fun a cfg => { cfg with taskShuffle := a }, fun _ _ => rfl, fun _ => rfl⟩,
  int jsoncpp v "thread_num"
    ⟨threadNum, fun a cfg => { cfg with threadNum := a }, fun _ _ => rfl, fun _ => rfl⟩,
  string jsoncpp v "dbdata_host"
    ⟨dbDataHost, fun a cfg => { cfg with dbDataHost := a }, fun _ _ => rfl, fun _ => rfl⟩,
  string jsoncpp v "dbdata_user"
    ⟨dbDataUser, fun a cfg => { cfg with dbDataUser := a }, fun _ _ => rfl, fun _ => rfl⟩,
  string jsoncpp v "dbdata_pwd"
    ⟨dbDataPwd, fun a cfg => { cfg with dbDataPwd := a }, fun _ _ => rfl, fun _ => rfl⟩,
  string jsoncpp v "dbtask_host"
    ⟨dbTaskHost, fun a cfg => { cfg with dbTaskHost := a }, fun _ _ => rfl, fun _ => rfl⟩,
  string jsoncpp v "dbtask_user"
    ⟨dbTaskUser, fun a cfg => { cfg with dbTaskUser := a }, fun _ _ => rfl, fun _ => rfl⟩,
  string jsoncpp v "dbtask_pwd"
    ⟨dbTaskPwd, fun a cfg => { cfg with dbTaskPwd := a }, fun _ _ => rfl, fun _ => rfl⟩]

def init (cfg : FdConf) : Content → Bool × FdConf
  | .unreadable => (false, cfg)
  | .notJson => (false, cfg)
  | .json v =>
    match writeAll (assignments jsoncpp v) cfg with
    | (false, cfg) => (false, cfg)
    | (true, cfg) =>
      (true, { cfg with
        fid := ""
        taskID := ""
        engineType := "unknown"
        taskType := "unknown"
        server := "127.0.0.1"
        cephPath := "" })

end init

variable {jsoncpp : Jsoncpp} {v : Json} {cfg : FdConf}

theorem assignments_apart : (assignments jsoncpp v).Pairwise Write.Apart := by
  simp [assignments, int, string, Write.Apart]

theorem init_json (jsoncpp : Jsoncpp) (v : Json) (cfg : FdConf) :
    (init jsoncpp cfg (.json v)).1 = (writeAll (assignments jsoncpp v) cfg).1 ∧
    ((init jsoncpp cfg (.json v)).1 = false →
      (init jsoncpp cfg (.json v)).2 = (writeAll (assignments jsoncpp v) cfg).2) := by
  simp only [init]
  generalize writeAll (assignments jsoncpp v) cfg = written
  obtain ⟨all, cfg'⟩ := written
  cases all with
  | false => exact ⟨rfl, fun _ => rfl⟩
  | true => exact ⟨rfl, fun failed => Bool.noConfusion failed⟩

/-- `init` changes nothing when it fails exactly if the configuration holds what is read before a
conversion throws. -/
theorem init_atomic_iff (jsoncpp : Jsoncpp) (cfg : FdConf) (content : Content) :
    ((init jsoncpp cfg content).1 = false → (init jsoncpp cfg content).2 = cfg) ↔
      ∀ v, content = .json v → (∀ w ∈ assignments jsoncpp v, w.Readable) ∨
        ∀ w ∈ (assignments jsoncpp v).takeWhile fun w => w.Readable, w.Holds cfg := by
  cases content with
  | unreadable => exact iff_of_true (fun _ => rfl) fun _ eq => Content.noConfusion eq
  | notJson => exact iff_of_true (fun _ => rfl) fun _ eq => Content.noConfusion eq
  | json v =>
    obtain ⟨fst, snd⟩ := init_json jsoncpp v cfg
    calc
      _ ↔ ((writeAll (assignments jsoncpp v) cfg).1 = false →
          (writeAll (assignments jsoncpp v) cfg).2 = cfg) := by
        rw [← fst]
        exact imp_congr_right fun failed => by rw [snd failed]
      _ ↔ _ := writeAll_atomic assignments_apart
      _ ↔ _ := ⟨fun h _ eq => Content.json.inj eq ▸ h, fun h => h v rfl⟩

def Jsoncpp.strict : Jsoncpp where
  asInt
    | .null => some 0
    | .int n => some n
    | _ => none
  asString
    | .null => some ""
    | .string str => some str
    | _ => none

/-- The new shuffle stays with the old number of threads. -/
theorem init_half :
    let cfg : FdConf := ⟨"", "", "", "", 0, 4, "", "", "", "", "", "", "", ""⟩
    init .strict cfg (.json (.object [("shuffle", .int 1), ("thread_num", .array [])])) =
      (false, { cfg with taskShuffle := 1 }) ∧ { cfg with taskShuffle := 1 } ≠ cfg := by
  exact ⟨rfl, by decide⟩

end Leano.Config
