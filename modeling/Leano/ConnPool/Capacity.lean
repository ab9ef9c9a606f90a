import Leano.ConnPool.Exclusion

universe u v

namespace Leano.ConnPool

open Leano.Lib

variable {ι : Type v} {K : Type u}

inductive Close where
  | closed
  | sqlException
  | exception
  deriving DecidableEq

def destoryConnection (s : State ι K) (conn : Option K) (r : Close) : State ι K :=
  match conn with
  | none => s
  | some k =>
    match r with
    | .closed => { s with deleted := s.deleted ++ [k] }
    | .sqlException => { s with deleted := s.deleted ++ [k] }
    | .exception => { s with deleted := s.deleted ++ [k] }

def destoryConnPool (s : State ι K) (close : K → Close) : State ι K :=
  let s := s.connList.foldl (fun s icon => destoryConnection s (some icon) (close icon)) s
  { s with curSize := 0, connList := [] }

theorem destoryConnection_some (s : State ι K) (k : K) (r : Close) :
    destoryConnection s (some k) r = { s with deleted := s.deleted ++ [k] } := by
  cases r <;> rfl

theorem foldl_destoryConnection (close : K → Close) (conns : List K) (s : State ι K) :
    conns.foldl (fun s icon => destoryConnection s (some icon) (close icon)) s =
      { s with deleted := s.deleted ++ conns } := by
  induction conns generalizing s with
  | nil => simp
  | cons k conns ih =>
    rw [List.foldl_cons, ih, destoryConnection_some]
    simp

theorem destoryConnPool_eq (s : State ι K) (close : K → Close) :
    destoryConnPool s close =
      { s with curSize := 0, connList := [], deleted := s.deleted ++ s.connList } := by
  rw [destoryConnPool, foldl_destoryConnection]

variable [Fintype ι] [DecidableEq ι] [DecidableEq K] {maxSize : Int}

namespace Pool

variable {p q : Pool ι K}

/-- The end of the pool, whatever its connections do when they are closed: each connection it ever
made has been deleted once, or is lent and nobody will delete it. -/
theorem destroys (h : ReachIf step Excludes (new maxSize) p) (free : p.Free) (close : K → Close) :
    let d := destoryConnPool p.state close
    (d.made : Multiset K) = d.deleted + d.lent ∧ d.made.Nodup ∧
      ((∀ k ∈ d.made, k ∈ d.deleted) ↔ ∀ u, d.lentTo u = 0) := by
  have reach := reach_of_free h free
  simp only [destoryConnPool_eq]
  generalize p.state = s at reach ⊢
  obtain ⟨c, shows⟩ := shows_of_reach reach
  have all : (s.made : Multiset K) =
      ((s.deleted ++ s.connList : List K) : Multiset K) + s.lent := by
    rw [← shows.made, Custody.all, shows.idle, shows.lent, shows.gone, ← Multiset.coe_add]
    rw [add_right_comm, add_comm (s.connList : Multiset K)]
  have once : (s.made : Multiset K).Nodup := by
    rw [← shows.made]
    exact c.once
  refine ⟨all, Multiset.coe_nodup.mp once, ?_⟩
  have apart := (Multiset.nodup_add.mp (all ▸ once)).2.2
  constructor
  · intro deleted u
    refine Multiset.eq_zero_of_forall_notMem fun k hk => ?_
    have lent : k ∈ s.lent := Multiset.mem_of_le (share_le_total u) hk
    have made : k ∈ (s.made : Multiset K) := by
      rw [all]
      exact Multiset.mem_add.mpr (.inr lent)
    exact Multiset.disjoint_left.mp apart (deleted k made) lent
  · intro none k hk
    have lent : s.lent = 0 := total_eq_zero none
    rw [lent, add_zero] at all
    exact (all ▸ Multiset.mem_coe.mpr hk : k ∈ ((s.deleted ++ s.connList : List K) : Multiset K))

theorem destroys_of_two : ∃ p : Pool (Fin 1) Nat,
    ((destoryConnPool p.state fun _ => .sqlException).deleted = [2] ∧
        (p.state.callers 0).held = [1]) ∧
      let d := destoryConnPool p.state fun _ => .sqlException
      (d.made : Multiset Nat) = d.deleted + d.lent ∧ d.made.Nodup ∧
        ((∀ k ∈ d.made, k ∈ d.deleted) ↔ ∀ u, d.lentTo u = 0) := by
  obtain ⟨p, hp, now⟩ := exists_reachIf step Excludes (new 4)
    ([.beside (.initConnection (.connection 1)), .beside (.initConnection (.connection 2)),
        .beside .constructed, .beside (.call 0 .getConnection), .lock 0] ++
      List.replicate 4 (.work 0 false .sqlException) ++ [.unlock 0, .beside (.ret 0)])
    (fun p : Pool (Fin 1) Nat => decide (p.Free ∧
      (destoryConnPool p.state fun _ => .sqlException).deleted = [2] ∧
        (p.state.callers 0).held = [1])) (by decide)
  obtain ⟨free, ended⟩ := of_decide_eq_true now
  exact ⟨p, ended, destroys hp free _⟩

def Act.Answers (u : ι) : Act ι K → Prop
  | .unlock t => t ≠ u
  | .work t _ r => t = u → ¬ r.Fails
  | _ => True

def Answered (u : ι) (p : Pool ι K) (a : Act ι K) : Prop := p.Excludes a ∧ a.Answers u

instance (u : ι) (a : Act ι K) : Decidable (a.Answers u) :=
  match a with
  | .unlock t => inferInstanceAs (Decidable (t ≠ u))
  | .work t _ (.connection _) => isTrue fun _ => id
  | .work t _ .sqlException => decidable_of_iff (t ≠ u) (by simp [Act.Answers, Connect.Fails])
  | .work t _ .runtimeError => decidable_of_iff (t ≠ u) (by simp [Act.Answers, Connect.Fails])
  | .beside _ => isTrue trivial
  | .skip _ => isTrue trivial
  | .lock _ => isTrue trivial

instance (u : ι) (p : Pool ι K) (a : Act ι K) : Decidable (p.Answered u a) :=
  inferInstanceAs (Decidable (_ ∧ _))

/-- The caller `u` is in a section that was entered in a state with the connections and counts
of `t`. -/
def Entered (maxSize : Int) (u : ι) (t : State ι K) (p : Pool ι K) : Prop :=
  ∃ s op c, Reach ConnPool.step (State.new maxSize) s ∧ p.Inside False u op s c ∧
    s.connList = t.connList ∧ s.curSize = t.curSize ∧ s.lent = t.lent

variable {p' : Pool ι K} {u : ι} {t : State ι K}

theorem Entered.step (h : p.Entered maxSize u t) {a : Act ι K} (ha : p.Answered u a)
    (hs : p.step a = some p') : p'.Entered maxSize u t := by
  obtain ⟨s, op, c, reach, inside, idle, size, lent⟩ := h
  obtain ⟨excl, answers⟩ := ha
  have out : ∀ k ∈ s.connList, k ∉ s.deleted :=
    fun k idle gone => ((apart_of_reach reach).gone k gone).1 idle
  obtain ⟨res, leaves, -⟩ | ⟨c', inside'⟩ | ⟨v, x, b, same, hb, inside'⟩ :=
    inside.step (quiet_of_reach reach) out excl
      (by rintro closed r rfl; exact answers rfl) hs
  · subst leaves
    exact absurd rfl answers
  · exact ⟨s, op, c', reach, inside', idle, size, lent⟩
  · exact ⟨_, op, c, .next reach trivial hb, inside', idle, size, (lent_setCaller same).trans lent⟩

/-- `GetConnection` with a database that answers refuses a caller exactly when the pool has made all
it may and all are lent. -/
theorem refuses_iff_all_lent (nonneg : 0 ≤ maxSize) (h : ReachIf step Excludes (new maxSize) p)
    (free : p.Free) (hl : p.step (.lock u) = some p') (run : ReachIf step (Answered u) p' q)
    {con : Option K} (last : q.stage u = some (.unlock (.connection con))) :
    con = none ↔ p.lent.card = maxSize := by
  obtain ⟨op, c, inside⟩ := inside_of_lock False free hl
  have entered : q.Entered maxSize u p.state :=
    run.invariant (I := Entered maxSize u p.state)
      ⟨_, op, c, reach_of_free h free, inside, rfl, rfl, rfl⟩
      fun _ _ _ _ hI ha hs => hI.step ha hs
  obtain ⟨s, op, c, reach, inside, idle, size, lent⟩ := entered
  obtain ⟨maxSize_eq, law, bound, -⟩ := reach_books nonneg reach
  rw [lent_of_free free, ← lent]
  obtain rfl := Option.some.inj (inside.stage.symm.trans last)
  have midway := inside.midway
  generalize q.state = s' at midway
  cases midway with
  | @reused _ rest hq =>
    have some := congrArg List.length hq
    rw [List.length_cons] at some
    refine iff_of_false nofun ?_
    omega
  | @replaced _ rest _ hq =>
    have some := congrArg List.length hq
    rw [List.length_cons] at some
    refine iff_of_false nofun ?_
    omega
  | created hq room =>
    have none := congrArg List.length hq
    rw [List.length_nil] at none
    refine iff_of_false nofun ?_
    omega
  | refused hq full =>
    have none := congrArg List.length hq
    rw [List.length_nil] at none
    refine iff_of_true rfl ?_
    omega
  | discarded _ may => exact may.elim
  | failed _ _ may => exact may.elim

theorem refuses_iff_all_lent_of_two : ∃ p q : Pool (Fin 2) Nat,
    (p.lent.card = 1 ∧ q.stage 1 = some (.unlock (.connection none))) ∧
      ((none : Option Nat) = none ↔ (p.lent.card : Int) = 1) := by
  obtain ⟨p, reach, now⟩ := exists_reachIf step Excludes (new 1)
    ([.beside .constructed, .beside (.call 0 .getConnection), .lock 0] ++
      List.replicate 5 (.work 0 false (.connection 1)) ++
      [.unlock 0, .beside (.ret 0), .beside (.call 1 .getConnection)])
    (fun p : Pool (Fin 2) Nat => decide (p.Free ∧ p.lent.card = 1) &&
      (p.step (.lock 1)).any fun p' =>
        (runIf step (Answered 1) p' [.work 1 false (.connection 2),
          .beside (.call 0 (.releaseConnection (some 1))), .work 1 false (.connection 2)]).any
            fun q : Pool (Fin 2) Nat => decide (q.stage 1 = some (.unlock (.connection none))))
    (by decide)
  obtain ⟨before, hany⟩ := Bool.and_eq_true_iff.mp now
  obtain ⟨free, lent⟩ := of_decide_eq_true before
  obtain ⟨p', hl, hrun⟩ := (Option.any_eq_true _ _).mp hany
  obtain ⟨q, run, last⟩ := (Option.any_eq_true _ _).mp hrun
  have last := of_decide_eq_true last
  exact ⟨p, q, ⟨lent, last⟩,
    refuses_iff_all_lent (by decide) reach free hl (reachIf_of_runIf run) last⟩

end Pool

end Leano.ConnPool
