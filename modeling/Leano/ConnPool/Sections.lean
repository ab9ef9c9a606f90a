import Leano.ConnPool.Books

/-! The critical sections of the pool, one access at a time. Nothing initialises the mutex `lock`,
so that `pthread_mutex_lock` may let a caller in while another one is inside. -/

universe u v

namespace Leano.ConnPool

open Leano.Lib

/-- Where a caller is between `pthread_mutex_lock` and `pthread_mutex_unlock`, with its local
variables. `--` and `++` are a load and a store. -/
inductive Stage (K : Type u) where
  | size
  | front
  | popFront (con : K)
  | isClosed (con : K)
  | delete (con : K)
  | replace
  | decrease
  | decreased (n : Int)
  | room
  | create
  | increase (con : K)
  | increased (con : K) (n : Int)
  | pushBack (conn : K)
  | unlock (res : Res K)
  /-- Undefined behaviour: an empty list has no front, a deleted connection is not there. -/
  | lost
  deriving DecidableEq

variable {ι : Type v} {K : Type u}

def Stage.inHand : Stage K → Option K
  | .isClosed con => some con
  | .delete con => some con
  | .increase con => some con
  | .increased con _ => some con
  | .pushBack conn => some conn
  | .unlock (.connection con) => con
  | _ => none

def Op.entry : Op K → Option (Stage K)
  | .getConnection => some .size
  | .releaseConnection conn => conn.map .pushBack

def work [DecidableEq K] (s : State ι K) (isClosed : Bool) (r : Connect K) :
    Stage K → Option (State ι K × Stage K)
  | .size => some (s, if s.connList.length > 0 then .front else .room)
  | .front =>
    match s.connList with
    | con :: _ => some (s, .popFront con)
    | [] => some (s, .lost)
  | .popFront con =>
    match s.connList with
    | _ :: rest => some ({ s with connList := rest }, .isClosed con)
    | [] => some (s, .lost)
  | .isClosed con =>
    if con ∈ s.deleted then some (s, .lost)
    else some (s, if isClosed then .delete con else .unlock (.connection (some con)))
  | .delete con =>
    if con ∈ s.deleted then some (s, .lost)
    else some ({ s with deleted := s.deleted ++ [con] }, .replace)
  | .replace =>
    (s.createConnection r).map fun (s, con) =>
      match con with
      | some _ => (s, .unlock (.connection con))
      | none => (s, .decrease)
  | .decrease => some (s, .decreased s.curSize)
  | .decreased n => some ({ s with curSize := n - 1 }, .unlock (.connection none))
  | .room => some (s, if s.curSize < s.maxSize then .create else .unlock (.connection none))
  | .create =>
    (s.createConnection r).map fun (s, con) =>
      match con with
      | some con => (s, .increase con)
      | none => (s, .unlock (.connection none))
  | .increase con => some (s, .increased con s.curSize)
  | .increased con n => some ({ s with curSize := n + 1 }, .unlock (.connection (some con)))
  | .pushBack conn => some ({ s with connList := s.connList ++ [conn] }, .unlock .released)
  | .unlock _ => none
  | .lost => none

/-- The pool with the callers that are in a critical section. A caller's `pc` stays as it is while
the caller is inside. -/
structure Pool (ι : Type v) (K : Type u) where
  state : State ι K
  stage : ι → Option (Stage K)

inductive Beside (ι : Type v) (K : Type u) where
  | initConnection (r : Connect K)
  | constructed
  | call (t : ι) (op : Op K)
  | ret (t : ι)

def Beside.act : Beside ι K → Act ι K
  | .initConnection r => .initConnection r
  | .constructed => .constructed
  | .call t op => .call t op
  | .ret t => .ret t

namespace Pool

/-- `skip` is `ReleaseConnection(NULL)`. -/
inductive Act (ι : Type v) (K : Type u) where
  | beside (b : Beside ι K)
  | skip (t : ι)
  | lock (t : ι)
  | work (t : ι) (isClosed : Bool) (r : Connect K)
  | unlock (t : ι)

def new (maxSize : Int) : Pool ι K := ⟨.new maxSize, fun _ => none⟩

def Free (p : Pool ι K) : Prop := ∀ t, p.stage t = none

instance [Fintype ι] (p : Pool ι K) : Decidable p.Free :=
  decidable_of_iff (∀ t, (p.stage t).isNone = true)
    (forall_congr' fun _ => Option.isNone_iff_eq_none)

def lentTo (p : Pool ι K) (t : ι) : Multiset K :=
  match p.stage t with
  | none => p.state.lentTo t
  | some c => ((p.state.callers t).held : Multiset K) + c.inHand.toList

def lent [Fintype ι] (p : Pool ι K) : Multiset K := total id p.lentTo

/-- `pthread_mutex_lock` excludes: it lets a caller in only while nobody is inside. -/
def Excludes (p : Pool ι K) : Act ι K → Prop
  | .lock _ => p.Free
  | _ => True

instance [Fintype ι] (p : Pool ι K) (a : Act ι K) : Decidable (p.Excludes a) :=
  match a with
  | .lock _ => inferInstanceAs (Decidable p.Free)
  | .beside _ => isTrue trivial
  | .skip _ => isTrue trivial
  | .work _ _ _ => isTrue trivial
  | .unlock _ => isTrue trivial

variable [DecidableEq ι]

def enter (p : Pool ι K) (t : ι) (c : Stage K) : Pool ι K :=
  { p with stage := Function.update p.stage t (some c) }

def leave (p : Pool ι K) (t : ι) (res : Res K) : Pool ι K :=
  ⟨p.state.answer t res, Function.update p.stage t none⟩

variable [DecidableEq K]

def step (p : Pool ι K) : Act ι K → Option (Pool ι K)
  | .beside b => (ConnPool.step p.state b.act).map fun s => { p with state := s }
  | .skip t =>
    match (p.state.callers t).pc with
    | .inside (.releaseConnection none) => some { p with state := p.state.answer t .released }
    | _ => none
  | .lock t =>
    match (p.state.callers t).pc, p.stage t with
    | .inside op, none => op.entry.map (p.enter t)
    | _, _ => none
  | .work t isClosed r =>
    match p.stage t with
    | some c =>
      (ConnPool.work p.state isClosed r c).map fun (s, c) => { p with state := s }.enter t c
    | none => none
  | .unlock t =>
    match p.stage t with
    | some (.unlock res) => some (p.leave t res)
    | _ => none

end Pool

end Leano.ConnPool
