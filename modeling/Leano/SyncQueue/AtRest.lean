import Leano.SyncQueue.Settling
import Leano.SyncQueue.Stopped
import Leano.SyncQueue.Threads

universe u v

namespace Leano.SyncQueue

open Leano.Lib

variable {ι : Type v} {T : Type u}

def Act.settles : Act ι T → Bool
  | .run _ _ => true
  | .ret _ => true
  | _ => false

def Op.fullToCome : Op T → Bool
  | .stopNotFull => true
  | _ => false

def Op.emptyToCome : Op T → Bool
  | .stopNotFull => true
  | .stopNotEmpty => true
  | _ => false

def Sends (on toCome : Op T → Bool) (s : State ι T) : Prop :=
  s.q.needStop = true →
    Released on s ∨ ∃ t op, (s.threads t).section? = some op ∧ toCome op = true

def Waits (ph : Phase (Op T) (Res T)) : Prop :=
  ∀ op, ph = .blocked op → op.onNotFull = true ∨ op.onNotEmpty = true

theorem Waits.wake (op : Op T) (_ : Waits (.blocked op)) : Waits (.woken op) :=
  fun _ same => by cases same

variable [Fintype ι] [DecidableEq ι] {s s' : State ι T} {a : Act ι T} {t : ι} {op : Op T}

omit [Fintype ι] in
theorem section_of_step (hs : Step s a s') (hop : (s.threads t).section? = some op)
    (other : ∀ w, a ≠ .run t w) : (s'.threads t).section? = some op := by
  have apart : ∀ {u ph}, s.threads u = ph → ph.section? = none → t ≠ u := by
    rintro u _ rfl none rfl
    cases none.symm.trans hop
  have ran : ∀ {u w}, a = .run u w → t ≠ u := by
    rintro u w rfl rfl
    exact other w rfl
  have woken : ∀ {on : Op T → Bool} {th th' : Threads ι T}, Notified on th th' →
      (th t).section? = some op → (th' t).section? = some op := by
    intro on th th' hn hop
    rwa [hn.section hop]
  have moved : ∀ {th : Threads ι T} {u ph}, t ≠ u → (th t).section? = some op →
      (Function.update th u ph t).section? = some op := by
    intro th u ph hu hop
    rwa [Function.update_of_ne hu]
  cases hs with
  | @call u o idle => cases o <;> exact moved (apart idle rfl) hop
  | spurious blocked => exact moved (apart blocked rfl) hop
  | ret back => exact moved (apart back rfl) hop
  | wait => exact moved (ran rfl) hop
  | stopped => exact moved (ran rfl) hop
  | put _ _ _ hn => exact woken hn (moved (ran rfl) hop)
  | take _ _ _ hn => exact woken hn (moved (ran rfl) hop)
  | takeList _ _ _ hn => exact woken hn (moved (ran rfl) hop)
  | stop => exact moved (ran rfl) hop
  | stopNotFull => exact moved (ran rfl) ((congrArg _ (notifyAll_section hop)).trans hop)
  | stopNotEmpty => exact moved (ran rfl) ((congrArg _ (notifyAll_section hop)).trans hop)

theorem Sends.step {on toCome : Op T → Bool} (h : Sends on toCome s) (hs : Step s a s')
    (first : toCome .stopNotFull = true) (entry : ∀ op, op.isEntry = true → toCome op = false)
    (full : on = Op.onNotFull ∨ toCome .stopNotEmpty = true)
    (empty : toCome .stopNotEmpty = true → on = Op.onNotEmpty) : Sends on toCome s' := by
  intro stopped
  by_cases was : s.q.needStop = true
  · rcases h was with done | ⟨u, op, hop, later⟩
    · exact .inl (done.step hs)
    · by_cases mine : ∃ w, a = .run u w
      · obtain ⟨w, rfl⟩ := mine
        have runs : ∀ {o}, (s.threads u).section? = some o → toCome o = true := by
          intro o ho
          rwa [Option.some.inj (ho.symm.trans hop)]
        have not_entry : ∀ {o}, (s.threads u).section? = some o → o.isEntry ≠ true :=
          fun ho isEntry => by cases (entry _ isEntry).symm.trans (runs ho)
        have sent : ∀ {ph : Phase (Op T) (Res T)}, ph.isBlocked on = false →
            Released on ({ s with threads := notifyAll on s.threads }.setThread u ph) :=
          fun new => ⟨was, forall_update (Q := fun ph => Phase.isBlocked on ph = false)
            (count_eq_zero.mp notifyAll_blocked) new⟩
        cases hs with
        | wait ho blocks => cases blocks.symm.trans (Op.not_blocks was _)
        | @stopped _ _ o _ ho hr => cases o <;> first | exact absurd rfl (not_entry ho) | cases hr
        | put ho => exact absurd rfl (not_entry ho)
        | take ho => exact absurd rfl (not_entry ho)
        | takeList ho => exact absurd rfl (not_entry ho)
        | stop ho => exact absurd rfl (not_entry ho)
        | stopNotFull ho =>
          rcases full with rfl | there
          · exact .inl (sent rfl)
          · exact .inr ⟨u, .stopNotEmpty, by simp [State.setThread, Phase.section?], there⟩
        | stopNotEmpty ho =>
          obtain rfl := empty (runs ho)
          exact .inl (sent rfl)
      · exact .inr ⟨u, op, section_of_step hs hop fun w same => mine ⟨w, same⟩, later⟩
  · cases hs with
    | @stop u => exact .inr ⟨u, .stopNotFull, by simp [State.setThread, Phase.section?], first⟩
    | @call u o => cases o <;> exact absurd stopped was
    | _ => exact absurd stopped was

theorem reach_sends {maxSize : Int} (h : Reach step (State.init maxSize) s) :
    Sends Op.onNotFull Op.fullToCome s ∧ Sends Op.onNotEmpty Op.emptyToCome s := by
  refine h.invariant (I := fun s => Sends Op.onNotFull Op.fullToCome s ∧
    Sends Op.onNotEmpty Op.emptyToCome s)
    ⟨fun stop => (by cases stop), fun stop => (by cases stop)⟩ ?_
  intro s a s' _ ih _ hs
  refine ⟨ih.1.step (step_cases hs) rfl ?_ (.inl rfl) (fun out => by cases out),
    ih.2.step (step_cases hs) rfl ?_ (.inr rfl) fun _ => rfl⟩
  · intro op entry
    cases op <;> first | rfl | cases entry
  · intro op entry
    cases op <;> first | rfl | cases entry

theorem reach_waits {maxSize : Int} (h : Reach step (State.init maxSize) s) (t : ι) :
    Waits (s.threads t) := by
  have other : ∀ {ph : Phase (Op T) (Res T)}, (∀ op, ph ≠ .blocked op) → Waits ph :=
    fun not op same => absurd same (not op)
  refine h.invariant (I := fun s => ∀ t, Waits (s.threads t)) (fun _ _ same => by cases same) ?_ t
  intro s a s' _ ih _ hs
  cases step_cases hs with
  | @call t op =>
    have all : ∀ t, Waits ((s.offer op).threads t) := by cases op <;> exact ih
    exact forall_update all (other (by simp))
  | spurious => exact forall_update ih (other (by simp))
  | ret => exact forall_update ih (other (by simp))
  | @wait t w op hop blocks =>
    refine forall_update ih ?_
    rintro o ⟨⟩
    rcases Op.blocks_length blocks with ⟨full, -⟩ | ⟨-, empty, -⟩
    · exact .inl full
    · exact .inr empty
  | stopped => exact forall_update ih (other (by simp))
  | put _ _ _ hn => exact hn.forall (forall_update ih (other (by simp))) Waits.wake
  | take _ _ _ hn => exact hn.forall (forall_update ih (other (by simp))) Waits.wake
  | takeList _ _ _ hn => exact hn.forall (forall_update ih (other (by simp))) Waits.wake
  | stop => exact forall_update ih (other (by simp))
  | stopNotFull => exact forall_update (forall_notifyAll _ ih Waits.wake) (other (by simp))
  | stopNotEmpty => exact forall_update (forall_notifyAll _ ih Waits.wake) (other (by simp))

abbrev settle : State ι T → Act ι T → Option (State ι T) := only Act.settles step

theorem lowers_of_settle (hs : settle s a = some s') : s'.load 1 < s.load 1 := by
  obtain ⟨ha, hs⟩ := only_eq_some.mp hs
  cases a with
  | run t w => exact load_of_run (step_cases hs) (.inr rfl)
  | ret t =>
    obtain ⟨⟨r, back⟩, rfl⟩ := eq_of_ret hs
    have moved := load_setThread s 1 t .idle
    have pos : toDo (Fintype.card ι) 1 (s.threads t) = 1 := by
      rw [back]
      cases r <;> rfl
    rw [pos] at moved
    exact Nat.lt_of_succ_le moved.le
  | _ => cases ha

section

variable {maxSize : Int} (h : Reach step (State.init maxSize) s) (stuck : Stuck settle s)
include h stuck

omit h in
theorem settled_of_stuck (t : ι) : (s.threads t).section? = none := by
  refine Option.eq_none_iff_forall_ne_some.mpr fun op hop => ?_
  obtain ⟨w, q, hq⟩ := exists_run hop
  cases hq.symm.trans (stuck.of_only rfl)

theorem waits_of_stuck (t : ι) :
    s.threads t = .idle ∨ ∃ op, s.threads t = .blocked op ∧
      (op.onNotFull = true ∨ op.onNotEmpty = true) := by
  have settled := settled_of_stuck stuck t
  have waits := reach_waits h t
  cases ht : s.threads t with
  | idle => exact .inl rfl
  | ready op => cases ht ▸ settled
  | woken op => cases ht ▸ settled
  | blocked op => exact .inr ⟨op, rfl, waits op ht⟩
  | returned r =>
    have none : step s (.ret t) = none := stuck.of_only rfl
    simp [step, ht] at none

theorem idle_of_stopped (stopped : s.q.needStop = true) (t : ι) : s.threads t = .idle := by
  have done : ∀ {on toCome}, Sends on toCome s → Released on s := by
    intro on toCome sends
    refine (sends stopped).resolve_right ?_
    rintro ⟨u, op, hop, -⟩
    cases hop.symm.trans (settled_of_stuck stuck u)
  refine (waits_of_stuck h stuck t).resolve_right ?_
  rintro ⟨op, blocked, full | empty⟩
  · have nobody := (done (reach_sends h).1).nobody t
    rw [blocked] at nobody
    cases full.symm.trans nobody
  · have nobody := (done (reach_sends h).2).nobody t
    rw [blocked] at nobody
    cases empty.symm.trans nobody

end

/-- Nobody calls any more and nobody wakes up by itself: the queue comes to rest. At rest each call
has returned but `Take`s of an empty queue and `Put`s into one that is not empty, and all have if
it has been stopped; so takers and putters never wait for each other. -/
theorem comes_to_rest {maxSize : Int} (pos : 1 ≤ maxSize) (h : Reach step (State.init maxSize) s) :
    Halts settle s ∧ ∀ u, Reach settle s u → Stuck settle u →
      ∀ t, u.threads t = .idle ∨ u.q.needStop = false ∧
        ((u.threads t = .blocked .take ∨ u.threads t = .blocked .takeList) ∧ u.q.queue = [] ∨
          (∃ x, u.threads t = .blocked (.put x)) ∧ u.q.queue ≠ []) := by
  refine ⟨halts_of_lowers (I := fun _ => True) (fun s => s.load 1) ?_ trivial, ?_⟩
  · exact fun s a s' _ hs => ⟨trivial, lowers_of_settle hs⟩
  · intro u hr stuck t
    have reach := h.trans (reach_of_only hr)
    have settled := settled_of_stuck stuck
    by_cases stopped : u.q.needStop = true
    · exact .inl (idle_of_stopped reach stuck stopped t)
    · have go := Bool.eq_false_iff.mpr stopped
      refine (waits_of_stuck reach stuck t).imp_right ?_
      rintro ⟨op, blocked, waits⟩
      have empty : op.onNotEmpty = true → u.q.queue = [] := by
        intro takes
        exact (empty_of_settled pos reach go settled ⟨t, by rw [blocked]; exact takes⟩).1
      refine ⟨go, ?_⟩
      cases op with
      | take => exact .inl ⟨.inl blocked, empty rfl⟩
      | takeList => exact .inl ⟨.inr blocked, empty rfl⟩
      | put x =>
        refine .inr ⟨⟨x, blocked⟩, fun none => ?_⟩
        have some := count_pos.mpr ⟨t, show (u.threads t).isBlocked Op.onNotFull = true by
          rw [blocked]; rfl⟩
        have awake := (reach_wakes pos reach go).producers (by rw [none]; rfl) some
        exact absurd (awake_of_settled settled _) awake.ne'
      | _ => rcases waits with full | empty <;> contradiction

theorem comes_to_rest_of_three : ∃ s : State (Fin 3) Nat,
    (s.threads 1 = .blocked (.put 6) ∧ s.threads 2 = .ready .take) ∧
    Halts settle s ∧ ∀ u, Reach settle s u → Stuck settle u →
      ∀ t, u.threads t = .idle ∨ u.q.needStop = false ∧
        ((u.threads t = .blocked .take ∨ u.threads t = .blocked .takeList) ∧ u.q.queue = [] ∨
          (∃ x, u.threads t = .blocked (.put x)) ∧ u.q.queue ≠ []) := by
  obtain ⟨s, hs, hp⟩ := exists_reach step (State.init 1)
    [.call 0 (.put 5), .run 0 none, .call 1 (.put 6), .run 1 none, .call 2 .take]
    (fun s : State (Fin 3) Nat => decide (s.threads 1 = .blocked (.put 6) ∧
      s.threads 2 = .ready .take)) (by decide)
  exact ⟨s, of_decide_eq_true hp, comes_to_rest le_rfl hs⟩

end Leano.SyncQueue
