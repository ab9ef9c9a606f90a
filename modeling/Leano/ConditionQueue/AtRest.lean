import Leano.ConditionQueue.Timeouts
import Leano.ConditionQueue.Wakeup
import Leano.Lib.Halting
import Leano.Lib.Load

universe u v

namespace Leano.ConditionQueue

open Leano.Lib

variable {ι : Type v} {P : Type u}

def Act.settles : Act ι P → Bool
  | .run _ _ => true
  | .timeout _ => true
  | .ret _ => true
  | _ => false

def Op.worth (n : Nat) : Op P → Nat
  | .push _ => 4
  | .waitPop => 3
  | .waitTimeoutPop _ => 3
  | .signal => 2
  | .cleanQueueWith => n + 3
  | _ => 1

theorem Op.worth_pos (n : Nat) (op : Op P) : 0 < op.worth n := by
  cases op <;> exact Nat.succ_pos _

theorem Op.worth_waits (n : Nat) {op : Op P} (h : op.waits = true) : op.worth n = 3 := by
  cases op with
  | waitPop => rfl
  | waitTimeoutPop => rfl
  | _ => cases h

abbrev toDo (n : Nat) : Phase (Op P) (Res P) → Nat := Phase.load (Op.worth n) fun _ => 1

variable [Fintype ι] [DecidableEq ι] {s s' u : State ι P} {a : Act ι P} {t : ι} {op : Op P}

def State.load (s : State ι P) : Nat := total (toDo (Fintype.card ι)) s.threads

theorem load_setThread (s : State ι P) (t : ι) (ph : Phase (Op P) (Res P)) :
    (s.setThread t ph).load + toDo (Fintype.card ι) (s.threads t) =
      s.load + toDo (Fintype.card ι) ph :=
  total_update _ _ _ _

abbrev settle : State ι P → Act ι P → Option (State ι P) := only Act.settles step

theorem load_of_step (ha : a.settles = true) (hs : Step s a s') : s'.load < s.load := by
  have before : ∀ {t op}, (s.threads t).section? = some op →
      op.worth (Fintype.card ι) < toDo (Fintype.card ι) (s.threads t) := Phase.load_section
  -- a section that ends in a result and wakes nobody
  have ends : ∀ {t op r}, (s.threads t).section? = some op →
      (s.setThread t (.returned r)).load < s.load := by
    intro t op r hop
    have before := before hop
    have pos := op.worth_pos (Fintype.card ι)
    have moved := load_setThread s t (.returned r)
    simp only [Phase.load] at moved
    omega
  cases hs with
  | call => cases ha
  | spurious => cases ha
  | @timeout t op there waits =>
    have worth := Op.worth_waits (Fintype.card ι) waits
    have out : (Op.timedOut : Op P).worth (Fintype.card ι) = 1 := rfl
    have moved := load_setThread s t (.woken .timedOut)
    rcases there with there | there
    · simp only [there, Phase.load, worth, out] at moved
      omega
    · simp only [there, Phase.load, worth, out] at moved
      omega
  | @ret t r back =>
    rw [giveBack_popped]
    have moved := load_setThread s t .idle
    simp only [back, Phase.load] at moved
    exact Nat.lt_of_succ_le moved.le
  | @push t w data hop =>
    have before := before hop
    have moved := load_setThread s t (.ready .signal)
    simp only [Phase.load, Op.worth] at before moved
    exact Nat.lt_of_add_lt_add_right (moved.trans_lt (Nat.add_lt_add_left before _))
  | @signal t w th hop hn =>
    have before := before hop
    have woken : total (toDo (Fintype.card ι)) th ≤ s.load + 1 := hn.load
    have moved := load_setThread { s with threads := th } t (.returned .unit)
    simp only [hn.section hop, Phase.load, Op.worth] at before moved
    change _ = total (toDo (Fintype.card ι)) th + 1 at moved
    omega
  | pop hop => exact ends hop
  | @wait t w op waiters hop =>
    have before := before hop
    have moved := load_setThread s t (.blocked op)
    exact Nat.lt_of_add_lt_add_right (moved.trans_lt (Nat.add_lt_add_left before _))
  | clean hop => exact ends hop
  | @broadcast t w hop =>
    have before := before hop
    have woken : total (toDo (Fintype.card ι)) (notifyAll Op.waits s.threads) ≤
        s.load + Fintype.card ι := load_notifyAll
    have moved := load_setThread { s with threads := notifyAll Op.waits s.threads } t
      (.ready .cleanLocked)
    simp only [notifyAll_section hop, Phase.load, Op.worth] at before moved
    change _ = total (toDo (Fintype.card ι)) (notifyAll Op.waits s.threads) + _ at moved
    omega
  | other hop => exact ends hop

theorem exists_run (hop : (s.threads t).section? = some op) :
    ∃ w s', step s (.run t w) = some s' := by
  have runs : (∃ w s', s.critical t w op = some s') → ∃ w s', step s (.run t w) = some s' := by
    rintro ⟨w, s', hw⟩
    exact ⟨w, s', Option.bind_eq_some_iff.mpr ⟨op, hop, hw⟩⟩
  apply runs
  cases op with
  | signal =>
    obtain ⟨w, th, hth⟩ := exists_notifyOne Op.waits s.threads
    exact ⟨w, _, Option.map_eq_some_iff.mpr ⟨th, hth, rfl⟩⟩
  | _ => exact ⟨none, _, rfl⟩

section

variable (stuck : Stuck settle s)
include stuck

theorem settled_of_stuck (t : ι) : (s.threads t).section? = none := by
  refine Option.eq_none_iff_forall_ne_some.mpr fun op hop => ?_
  obtain ⟨w, q, hq⟩ := exists_run hop
  cases hq.symm.trans (stuck.of_only rfl)

theorem waitPop_of_stuck (h : Reach step State.init s) (t : ι) :
    s.threads t = .idle ∨ s.threads t = .blocked .waitPop := by
  have settled := settled_of_stuck stuck t
  cases ht : s.threads t with
  | idle => exact .inl rfl
  | ready op => cases ht ▸ settled
  | woken op => cases ht ▸ settled
  | returned r =>
    have none : step s (.ret t) = none := stuck.of_only rfl
    simp [step, ht] at none
  | blocked op =>
    have waits := waits_of_reach h t op ht
    cases op with
    | waitPop => exact .inr rfl
    | waitTimeoutPop timeout =>
      have none : step s (.timeout t) = none := stuck.of_only rfl
      simp [step, ht] at none
    | _ => cases waits

theorem empty_of_stuck (covered : Covered s) (blocked : s.threads t = .blocked .waitPop) :
    s.q.dataqueue = [] := by
  have settled := settled_of_stuck stuck
  have awake : s.awake = 0 := by
    refine count_eq_zero.mpr fun t => ?_
    have none := settled t
    cases ht : s.threads t with
    | woken op => cases ht ▸ none
    | _ => rfl
  have signalling : s.signalling = 0 := by
    refine count_eq_zero.mpr fun t => ?_
    have none := settled t
    cases ht : s.threads t with
    | ready op => cases ht ▸ none
    | _ => rfl
  have short := covered (count_pos.mpr ⟨t, by rw [blocked]; rfl⟩)
  rw [awake, signalling] at short
  exact List.eq_nil_of_length_eq_zero (Nat.le_zero.mp short)

end

/-- Nobody calls any more and nobody wakes up by itself: the queue comes to rest. At rest every
call has returned but `wait_pop`s, and these wait on an empty queue if `wait_timeout_pop` has never
been called. -/
theorem rests_in_waitPop (h : Reach step State.init s) :
    Halts settle s ∧ ∀ u, Reach settle s u → Stuck settle u →
      (∀ t, u.threads t = .idle ∨ u.threads t = .blocked .waitPop) ∧
      (ReachIf step (fun _ a => a.isUntimed = true) State.init u →
        ∀ t, u.threads t = .blocked .waitPop → u.q.dataqueue = []) := by
  refine ⟨halts_of_lowers (I := fun _ => True) State.load ?_ trivial, fun u hr stuck => ⟨?_, ?_⟩⟩
  · intro s a s' _ hs
    obtain ⟨ha, hs⟩ := only_eq_some.mp hs
    exact ⟨trivial, load_of_step ha (step_cases hs)⟩
  · exact waitPop_of_stuck stuck (h.trans (reach_of_only hr))
  · exact fun untimed t blocked => empty_of_stuck stuck (reach_covered untimed) blocked

theorem rests_in_waitPop_of_three : ∃ s : State (Fin 3) Nat,
    (s.q.dataqueue = [some 7] ∧ s.threads 2 = .ready .signal) ∧
    Halts settle s ∧ ∀ u, Reach settle s u → Stuck settle u →
      (∀ t, u.threads t = .idle ∨ u.threads t = .blocked .waitPop) ∧
      (ReachIf step (fun _ a => a.isUntimed = true) State.init u →
        ∀ t, u.threads t = .blocked .waitPop → u.q.dataqueue = []) := by
  obtain ⟨s, hs, hp⟩ := exists_reach step State.init
    [.call 0 .waitPop, .run 0 none, .call 1 .waitPop, .run 1 none, .call 2 (.push (some 7)),
      .run 2 none]
    (fun s : State (Fin 3) Nat => decide (s.q.dataqueue = [some 7] ∧
      s.threads 2 = .ready .signal)) (by decide)
  exact ⟨s, of_decide_eq_true hp, rests_in_waitPop hs⟩

end Leano.ConditionQueue
