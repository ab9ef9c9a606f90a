import Leano.ConditionQueue.Order
import Leano.Lib.Watch

/-! `size()` against the elements that are queued or in use. `decrease` does not say whose element
is given back, and `CleanQueue` forgets those that are out. -/

universe u v

namespace Leano.ConditionQueue

open Leano.Lib

variable {ι : Type v} {P : Type u}

/-- The elements that are out (popped, and `decrease` has not been called for them), named by their
positions in `removed`; `since` is the length of `removed` after the last cleaning. -/
structure Ledger where
  since : Nat
  out : List Nat
  deriving DecidableEq

namespace Ledger

def inUse (l : Ledger) : Nat := (l.out.filter fun k => decide (l.since ≤ k)).length

def lend (l : Ledger) (s : State ι P) : Ledger :=
  match s.q.dataqueue with
  | [] => l
  | _ :: _ => { l with out := l.out ++ [s.removed.length] }

def clean (l : Ledger) (s : State ι P) : Ledger :=
  { l with since := s.removed.length + s.q.dataqueue.length }

def giveBack (l : Ledger) (k : Nat) : Ledger := { l with out := l.out.erase k }

end Ledger

abbrev Loans (ι : Type v) (P : Type u) := Watched (State ι P) Ledger

namespace Loans

def init : Loans ι P := ⟨State.init, ⟨0, []⟩⟩

def present (v : Loans ι P) : Nat := v.state.q.dataqueue.length + v.seen.inUse

end Loans

def seeLoan (l : Ledger) (s : State ι P) : Act ι P → Ledger
  | .run t _ =>
    match (s.threads t).section? with
    | some .tryPop => l.lend s
    | some .waitPop => l.lend s
    | some (.waitTimeoutPop _) => l.lend s
    | some .cleanQueue => l.clean s
    | some .cleanLocked => l.clean s
    | _ => l
  | _ => l

inductive Use (ι : Type v) (P : Type u) where
  | act (a : Act ι P)
  | giveBack (t : ι) (k : Nat)

def Op.isPush : Op P → Bool
  | .push _ => true
  | _ => false

def Op.isDecrease : Op P → Bool
  | .decrease => true
  | _ => false

def Act.counts (s : State ι P) : Act ι P → Bool
  | .call _ .increase => true
  | .run t _ =>
    match (s.threads t).section? with
    | some .increase => true
    | some .decrease => true
    | _ => false
  | _ => false

/-- What does not let `size()` fall behind: a push while its result fits an `unsigned int`, and the
return of an element that was popped since the last cleaning, or while none of these is out. -/
def Accurate (v : Loans ι P) : Use ι P → Prop
  | .act (.run t _) =>
    (v.state.threads t).section?.any Op.isPush = true → v.present + 1 < 2 ^ 32
  | .act _ => True
  | .giveBack _ k => v.seen.since ≤ k ∨ v.seen.inUse = 0

instance (v : Loans ι P) : (u : Use ι P) → Decidable (Accurate v u)
  | .act (.run _ _) => inferInstanceAs (Decidable (_ → _))
  | .act (.call _ _) => isTrue trivial
  | .act (.spurious _) => isTrue trivial
  | .act (.timeout _) => isTrue trivial
  | .act (.ret _) => isTrue trivial
  | .giveBack _ _ => inferInstanceAs (Decidable (_ ∨ _))

variable [Fintype ι] [DecidableEq ι]

def stepUse (v : Loans ι P) : Use ι P → Option (Loans ι P)
  | .act a => if a.counts v.state then none else watch step seeLoan v a
  | .giveBack t k =>
    if (v.state.threads t).section?.any Op.isDecrease = true ∧ k ∈ v.seen.out then
      (step v.state (.run t none)).map fun s => ⟨s, v.seen.giveBack k⟩
    else none

inductive Moves (v : Loans ι P) (u : Use ι P) (v' : Loans ι P) : Prop
  | push (acc : Accurate v u ↔ v.present + 1 < 2 ^ 32)
      (queue : v'.state.q.dataqueue.length = v.state.q.dataqueue.length + 1)
      (used : v'.state.q.used = v.state.q.used) (removed : v'.state.removed = v.state.removed)
      (seen : v'.seen = v.seen)
  | pop (acc : Accurate v u)
      (queue : v'.state.q.dataqueue.length + 1 = v.state.q.dataqueue.length)
      (used : v'.state.q.used = v.state.q.used + 1)
      (removed : v'.state.removed.length = v.state.removed.length + 1)
      (seen : v'.seen = { v.seen with out := v.seen.out ++ [v.state.removed.length] })
  | clean (acc : Accurate v u) (queue : v'.state.q.dataqueue = [])
      (used : v'.state.q.used = 0)
      (removed : v'.state.removed.length =
        v.state.removed.length + v.state.q.dataqueue.length)
      (seen : v'.seen = v.seen.clean v.state)
  | giveBack {t k} (eq : u = .giveBack t k) (there : k ∈ v.seen.out)
      (queue : v'.state.q.dataqueue = v.state.q.dataqueue)
      (used : v'.state.q.used = if 0 < v.state.q.used then v.state.q.used - 1 else v.state.q.used)
      (removed : v'.state.removed = v.state.removed) (seen : v'.seen = v.seen.giveBack k)
  | other (acc : Accurate v u) (queue : v'.state.q.dataqueue = v.state.q.dataqueue)
      (used : v'.state.q.used = v.state.q.used) (removed : v'.state.removed = v.state.removed)
      (seen : v'.seen = v.seen)

variable {v v' : Loans ι P} {u : Use ι P}

omit [Fintype ι] in
theorem moves_of_pop {t : ι} {w : Option ι} (acc : Accurate v (.act (.run t w)))
    (seen : v'.seen = v.seen.lend v.state)
    (none : v.state.q.dataqueue = [] → v'.state.q.dataqueue = [] ∧
      v'.state.q.used = v.state.q.used ∧ v'.state.removed = v.state.removed)
    (some : ∀ ptr rest, v.state.q.dataqueue = ptr :: rest →
      ∃ n, v'.state = v.state.popFront t ptr rest n) : Moves v (.act (.run t w)) v' := by
  cases hq : v.state.q.dataqueue with
  | nil =>
    obtain ⟨queue, used, removed⟩ := none hq
    exact .other acc (by rw [queue, hq]) used removed (by rw [seen, Ledger.lend, hq])
  | cons ptr rest =>
    obtain ⟨n, state⟩ := some ptr rest hq
    refine .pop acc ?_ ?_ ?_ ?_
    · rw [state, hq]
      rfl
    · rw [state]
      rfl
    · rw [state, State.popFront, State.setThread, List.length_append, List.length_singleton]
    · rw [seen, Ledger.lend, hq]

omit [Fintype ι] in
theorem moves_of_clean {t : ι} {w : Option ι} (acc : Accurate v (.act (.run t w)))
    (state : v'.state = v.state.clean t) (seen : v'.seen = v.seen.clean v.state) :
    Moves v (.act (.run t w)) v' := by
  refine .clean acc ?_ ?_ ?_ seen
  · rw [state]
    rfl
  · rw [state]
    rfl
  · rw [state, State.clean, State.setThread, List.length_append, List.length_map]

theorem moves_of_run {t : ι} {w : Option ι} (counts : Act.counts v.state (.run t w) = false)
    (h : watch step seeLoan v (.run t w) = some v') : Moves v (.act (.run t w)) v' := by
  obtain ⟨s, hs, rfl⟩ := eq_of_watch h
  obtain ⟨op, hop, h⟩ := Option.bind_eq_some_iff.mp hs
  have acc : op.isPush = false → Accurate v (.act (.run t w)) := by
    intro other push
    rw [hop, Option.any_some, other] at push
    cases push
  cases op with
  | push data =>
    cases h
    refine .push ?_ ?_ rfl rfl ?_
    · simp [Accurate, hop, Op.isPush]
    · simp [State.push, State.setThread]
    · simp [seeLoan, hop]
  | signal =>
    obtain ⟨th, hth, rfl⟩ := Option.map_eq_some_iff.mp h
    exact .other (acc rfl) rfl rfl rfl (by simp [seeLoan, hop])
  | tryPop =>
    cases h
    refine moves_of_pop (acc rfl) (by simp [seeLoan, hop]) ?_ ?_
    · intro hq
      simp [State.tryPop, hq, State.setThread]
    · intro ptr rest hq
      exact ⟨v.state.q.waitThreadNum, by simp only [State.tryPop, hq]⟩
  | waitPop =>
    cases h
    refine moves_of_pop (acc rfl) (by simp [seeLoan, hop]) ?_ ?_
    · intro hq
      simp [State.waitPop, hq, State.setThread]
    · intro ptr rest hq
      exact ⟨v.state.q.waitThreadNum - 1, by simp only [State.waitPop, hq]⟩
  | waitTimeoutPop timeout =>
    cases h
    refine moves_of_pop (acc rfl) (by simp [seeLoan, hop]) ?_ ?_
    · intro hq
      simp [State.waitTimeoutPop, hq, State.setThread]
    · intro ptr rest hq
      exact ⟨v.state.q.waitThreadNum, by simp only [State.waitTimeoutPop, hq]⟩
  | cleanQueue =>
    cases h
    exact moves_of_clean (acc rfl) rfl (by simp [seeLoan, hop])
  | cleanLocked =>
    cases h
    exact moves_of_clean (acc rfl) rfl (by simp [seeLoan, hop])
  | decrease => simp [Act.counts, hop] at counts
  | increase => simp [Act.counts, hop] at counts
  | _ =>
    cases h
    exact .other (acc rfl) rfl rfl rfl (by simp [seeLoan, hop])

theorem moves_of_step (h : stepUse v u = some v') : Moves v u v' := by
  cases u with
  | act a =>
    simp only [stepUse] at h
    split at h
    case isTrue => cases h
    case isFalse counts =>
      have counts : a.counts v.state = false := by simpa using counts
      cases a with
      | run t w => exact moves_of_run counts h
      | call t op =>
        obtain ⟨s, hs, rfl⟩ := eq_of_watch h
        cases step_cases hs with
        | call => exact .other trivial rfl rfl rfl rfl
      | spurious t =>
        obtain ⟨s, hs, rfl⟩ := eq_of_watch h
        cases step_cases hs with
        | spurious => exact .other trivial rfl rfl rfl rfl
      | timeout t =>
        obtain ⟨s, hs, rfl⟩ := eq_of_watch h
        cases step_cases hs with
        | timeout => exact .other trivial rfl rfl rfl rfl
      | ret t =>
        obtain ⟨s, hs, rfl⟩ := eq_of_watch h
        cases step_cases hs with
        | ret => rw [giveBack_popped]; exact .other trivial rfl rfl rfl rfl
  | giveBack t k =>
    simp only [stepUse] at h
    split at h
    case isTrue holds =>
      obtain ⟨s, hs, rfl⟩ := Option.map_eq_some_iff.mp h
      obtain ⟨op, hop, h⟩ := Option.bind_eq_some_iff.mp hs
      obtain ⟨dec, there⟩ := holds
      rw [hop, Option.any_some] at dec
      cases op with
      | decrease =>
        cases h
        exact .giveBack rfl there rfl rfl rfl rfl
      | _ => cases dec
    case isFalse => cases h

/-- While nothing goes wrong `m_used` is the number of elements in use. -/
structure Exact (v : Loans ι P) : Prop where
  used : v.state.q.used.toNat = v.seen.inUse
  fits : v.present < 2 ^ 32
  since : v.seen.since ≤ v.state.removed.length
  made : ∀ k ∈ v.seen.out, k < v.state.removed.length

omit [Fintype ι] [DecidableEq ι] in
theorem size_toNat (s : State ι P) :
    s.size.toNat = (s.q.used.toNat + s.q.dataqueue.length) % 2 ^ 32 := UInt32.toNat_ofNat'

omit [Fintype ι] [DecidableEq ι] in
theorem Exact.size (h : Exact v) : v.state.size.toNat = v.present := by
  have fits := h.fits
  rw [size_toNat, h.used]
  unfold Loans.present at *
  omega

namespace Ledger

variable {l : Ledger} {k : Nat}

theorem inUse_lend (now : l.since ≤ k) : inUse { l with out := l.out ++ [k] } = l.inUse + 1 := by
  simp [inUse, now]

omit [Fintype ι] [DecidableEq ι] in
theorem inUse_clean {s : State ι P} (made : ∀ k ∈ l.out, k < s.removed.length) :
    (l.clean s).inUse = 0 := by
  refine List.length_eq_zero_iff.mpr (List.filter_eq_nil_iff.mpr ?_)
  intro k hk
  have old : k < s.removed.length + s.q.dataqueue.length :=
    (made k hk).trans_le (Nat.le_add_right _ _)
  exact fun new => absurd (of_decide_eq_true new) (not_le.mpr old)

theorem inUse_giveBack_new (there : k ∈ l.out) (new : l.since ≤ k) :
    (l.giveBack k).inUse + 1 = l.inUse := by
  have there : k ∈ l.out.filter fun k => decide (l.since ≤ k) :=
    List.mem_filter.mpr ⟨there, decide_eq_true new⟩
  have pos := List.length_pos_of_mem there
  rw [inUse, giveBack, ← List.erase_filter, List.length_erase_of_mem there]
  exact Nat.sub_add_cancel pos

theorem inUse_giveBack_old (old : ¬ l.since ≤ k) : (l.giveBack k).inUse = l.inUse := by
  have not : k ∉ l.out.filter fun k => decide (l.since ≤ k) := by simp [old]
  rw [inUse, giveBack, ← List.erase_filter, List.erase_of_not_mem not]
  rfl

end Ledger

theorem toNat_decreased (used : UInt32) :
    (if 0 < used then used - 1 else used).toNat = used.toNat - 1 := by
  split
  case isTrue pos =>
    have one : (1 : UInt32) ≤ used := by
      rw [UInt32.le_iff_toNat_le]
      exact UInt32.lt_iff_toNat_lt.mp pos
    exact UInt32.toNat_sub_of_le _ _ one
  case isFalse none =>
    have zero : ¬ 0 < used.toNat := fun pos => none (UInt32.lt_iff_toNat_lt.mpr pos)
    omega

omit [Fintype ι] [DecidableEq ι] in
theorem Exact.step (h : Exact v) (acc : Accurate v u) (hs : Moves v u v') : Exact v' := by
  obtain ⟨hused, fits, since, made⟩ := h
  cases hs with
  | push bound queue used removed seen =>
    have room := bound.mp acc
    refine ⟨by rw [used, seen, hused], ?_, by rwa [seen, removed], by rwa [seen, removed]⟩
    unfold Loans.present at *
    rw [queue, seen]
    omega
  | pop _ queue used removed seen =>
    have lent : v'.seen.inUse = v.seen.inUse + 1 := by
      rw [seen]
      exact Ledger.inUse_lend since
    have present : v'.present = v.present := by
      unfold Loans.present
      omega
    refine ⟨?_, present ▸ fits, ?_, ?_⟩
    · rw [used, lent, UInt32.toNat_add, hused]
      unfold Loans.present at fits
      exact Nat.mod_eq_of_lt (show v.seen.inUse + 1 < 2 ^ 32 by omega)
    · rw [seen, removed]
      exact since.trans (Nat.le_succ _)
    · rw [seen, removed]
      intro k hk
      rcases List.mem_append.mp hk with old | new
      · exact (made k old).trans (Nat.lt_succ_self _)
      · rw [List.mem_singleton.mp new]
        exact Nat.lt_succ_self _
  | clean _ queue used removed seen =>
    have none : v'.seen.inUse = 0 := by
      rw [seen]
      exact Ledger.inUse_clean made
    refine ⟨by rw [used, none]; rfl, ?_, ?_, ?_⟩
    · rw [Loans.present, none, queue, List.length_nil]
      exact Nat.two_pow_pos 32
    · rw [seen, removed]
      exact le_rfl
    · rw [seen, removed]
      exact fun k hk => (made k hk).trans_le (Nat.le_add_right _ _)
  | @giveBack t k eq there queue used removed seen =>
    subst eq
    have fewer : v'.seen.inUse = v.seen.inUse - 1 := by
      rw [seen]
      by_cases new : v.seen.since ≤ k
      · exact Nat.eq_sub_of_add_eq (Ledger.inUse_giveBack_new there new)
      · have none : v.seen.inUse = 0 := acc.resolve_left new
        rw [Ledger.inUse_giveBack_old new, none]
    refine ⟨by rw [used, toNat_decreased, hused, fewer], ?_, by rwa [seen, removed], ?_⟩
    · unfold Loans.present at *
      rw [queue]
      omega
    · rw [seen, removed]
      exact fun k hk => made k (List.mem_of_mem_erase hk)
  | other _ queue used removed seen =>
    exact ⟨by rw [used, seen, hused], by rwa [Loans.present, queue, seen],
      by rwa [seen, removed], by rwa [seen, removed]⟩

omit [Fintype ι] [DecidableEq ι] in
theorem Exact.accurate (h : Exact v) (hs : Moves v u v')
    (enough : v'.present ≤ v'.state.size.toNat) : Accurate v u := by
  have bound := size_toNat v'.state
  cases hs with
  | push acc queue used removed seen =>
    apply acc.mpr
    have more : v'.present = v.present + 1 := by
      unfold Loans.present
      rw [queue, seen]
      omega
    omega
  | @giveBack t k eq there queue used removed seen =>
    subst eq
    by_contra bad
    obtain ⟨old, some⟩ := not_or.mp bad
    have same : v'.seen.inUse = v.seen.inUse := by
      rw [seen]
      exact Ledger.inUse_giveBack_old old
    have less : v'.state.q.used.toNat = v.seen.inUse - 1 := by rw [used, toNat_decreased, h.used]
    unfold Loans.present at enough
    omega
  | pop acc => exact acc
  | clean acc => exact acc
  | other acc => exact acc

theorem reach_exact (h : ReachIf stepUse Accurate Loans.init v) : Exact v := by
  refine h.invariant (I := Exact) ⟨rfl, Nat.two_pow_pos 32, le_rfl, nofun⟩ ?_
  exact fun _ _ _ _ ih acc hs => ih.step acc (moves_of_step hs)

/-- While every step is `Accurate`, `size()` counts the elements that are queued or in use; and the
next step keeps it from falling behind exactly if it is `Accurate`, too. -/
theorem size_counts (h : ReachIf stepUse Accurate Loans.init v) :
    v.state.q.dataqueue.length + v.seen.inUse ≤ v.state.size.toNat ∧
    ∀ u v', stepUse v u = some v' →
      (v'.state.q.dataqueue.length + v'.seen.inUse ≤ v'.state.size.toNat ↔ Accurate v u) := by
  have now := reach_exact h
  refine ⟨now.size.ge, ?_⟩
  intro u v' hs
  refine ⟨now.accurate (moves_of_step hs), fun acc => ?_⟩
  exact (now.step acc (moves_of_step hs)).size.ge

theorem size_counts_of_two :
    ∃ v : Loans (Fin 2) Nat, (v.state.size = 1 ∧ v.seen = ⟨1, [1]⟩) ∧
      v.state.q.dataqueue.length + v.seen.inUse ≤ v.state.size.toNat ∧
      ∀ u v', stepUse v u = some v' →
        (v'.state.q.dataqueue.length + v'.seen.inUse ≤ v'.state.size.toNat ↔ Accurate v u) := by
  obtain ⟨v, hv, hp⟩ := exists_reachIf stepUse Accurate Loans.init
    [.act (.call 0 (.push (some 7))), .act (.run 0 none), .act (.run 0 none), .act (.ret 0),
      .act (.call 0 .tryPop), .act (.run 0 none), .act (.ret 0),
      .act (.call 1 .cleanQueue), .act (.run 1 none), .act (.ret 1),
      .act (.call 0 .decrease), .giveBack 0 0, .act (.ret 0),
      .act (.call 1 (.push (some 8))), .act (.run 1 none), .act (.run 1 none), .act (.ret 1),
      .act (.call 1 .tryPop), .act (.run 1 none)]
    (fun v : Loans (Fin 2) Nat => decide (v.state.size = 1 ∧ v.seen = ⟨1, [1]⟩)) (by decide)
  exact ⟨v, of_decide_eq_true hp, size_counts hv⟩

/-- An element popped before a cleaning is given back while one popped since is in use. -/
theorem size_behind :
    ¬ ∀ v : Loans (Fin 2) Nat, Reach stepUse Loans.init v →
      v.state.q.dataqueue.length + v.seen.inUse ≤ v.state.size.toNat := by
  intro all
  obtain ⟨v, hv, hp⟩ := exists_reach stepUse Loans.init
    [.act (.call 0 (.push (some 7))), .act (.run 0 none), .act (.run 0 none), .act (.ret 0),
      .act (.call 0 .tryPop), .act (.run 0 none), .act (.ret 0),
      .act (.call 1 .cleanQueue), .act (.run 1 none), .act (.ret 1),
      .act (.call 1 (.push (some 8))), .act (.run 1 none), .act (.run 1 none), .act (.ret 1),
      .act (.call 1 .tryPop), .act (.run 1 none), .act (.ret 1),
      .act (.call 0 .decrease), .giveBack 0 0, .act (.ret 0)]
    (fun v : Loans (Fin 2) Nat => decide (v.state.size = 0 ∧ v.seen.inUse = 1)) (by decide)
  obtain ⟨size, out⟩ := of_decide_eq_true hp
  have enough := all v hv
  rw [size, out] at enough
  exact absurd enough (Nat.not_succ_le_zero _)

end Leano.ConditionQueue
