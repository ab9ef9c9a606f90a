import Leano.SyncQueue.Wakeup

universe u v

namespace Leano.SyncQueue

open Leano.Lib

variable {ι : Type v} {T : Type u} [Fintype ι] [DecidableEq ι] {s s' : State ι T} {a : Act ι T}

structure Released (on : Op T → Bool) (s : State ι T) : Prop where
  needStop : s.q.needStop = true
  nobody : ∀ t, (s.threads t).isBlocked on = false

theorem Op.not_blocks {q : Queue T} (stopped : q.needStop = true) (op : Op T) :
    op.blocks q = false := by
  cases op <;> simp [blocks, Queue.mayAdd, Queue.mayTake, stopped]

omit [Fintype ι] in
theorem Released.step {on : Op T → Bool} (h : Released on s) (hs : Step s a s') :
    Released on s' := by
  have update : ∀ {th : Threads ι T} (t : ι) {ph : Phase (Op T) (Res T)},
      (∀ u, (th u).isBlocked on = false) → ph.isBlocked on = false →
      ∀ u, (Function.update th t ph u).isBlocked on = false :=
    fun t _ all new => forall_update (Q := fun ph => Phase.isBlocked on ph = false) all new
  cases hs with
  | @call t op => cases op <;> exact ⟨h.needStop, update t h.nobody rfl⟩
  | @spurious t => exact ⟨h.needStop, update t h.nobody rfl⟩
  | @ret t => exact ⟨h.needStop, update t h.nobody rfl⟩
  | wait _ hb => cases hb.symm.trans (Op.not_blocks h.needStop _)
  | @stopped t => exact ⟨h.needStop, update t h.nobody rfl⟩
  | put _ go => cases h.needStop.symm.trans go
  | take _ go => cases h.needStop.symm.trans go
  | takeList _ go => cases h.needStop.symm.trans go
  | @stop t => exact ⟨rfl, update t h.nobody rfl⟩
  | @stopNotFull t =>
    have all := forall_notifyAll (Q := fun ph => Phase.isBlocked on ph = false) Op.onNotFull
      h.nobody fun _ _ => rfl
    exact ⟨h.needStop, update t all rfl⟩
  | @stopNotEmpty t =>
    have all := forall_notifyAll (Q := fun ph => Phase.isBlocked on ph = false) Op.onNotEmpty
      h.nobody fun _ _ => rfl
    exact ⟨h.needStop, update t all rfl⟩

def NotBack (ph : Phase (Op T) (Res T)) : Prop := ph ≠ .returned .stop

def NotPast (ph : Phase (Op T) (Res T)) : Prop :=
  ph ≠ .returned .stop ∧ ph.op? ≠ some .stopNotEmpty

def StopReleases (s : State ι T) : Prop :=
  Released Op.onNotEmpty s ∨ ∀ t, NotBack (s.threads t)

def StopReleasesPut (s : State ι T) : Prop :=
  Released Op.onNotFull s ∨ ∀ t, NotPast (s.threads t)

omit [Fintype ι] [DecidableEq ι] in
theorem StopFirst.stopped (first : StopFirst s) {t : ι} {op : Op T}
    (hop : (s.threads t).section? = some op) (late : op.isEntry = false) :
    s.q.needStop = true := by
  by_contra go
  exact absurd ((first (Bool.eq_false_iff.mpr go) t).of_section hop) (Bool.eq_false_iff.mp late)

theorem released_or_step {on : Op T → Bool} {Q : Phase (Op T) (Res T) → Prop}
    (h : Released on s ∨ ∀ t, Q (s.threads t)) (first : StopFirst s) (hs : Step s a s')
    (early : ∀ ph, NotPast ph → Q ph) (wake : ∀ op, Q (.blocked op) → Q (.woken op))
    (full : on = Op.onNotFull ∨ Q (.ready .stopNotEmpty))
    (empty : on = Op.onNotEmpty ∨ ∀ ph, Q ph → ph.section? ≠ some .stopNotEmpty) :
    Released on s' ∨ ∀ t, Q (s'.threads t) := by
  rcases h with done | none
  · exact .inl (done.step hs)
  have update : ∀ (t : ι) {ph : Phase (Op T) (Res T)}, NotPast ph →
      ∀ u, Q (Function.update s.threads t ph u) :=
    fun t ph new => forall_update none (early ph new)
  have sent : ∀ {t : ι} {op : Op T} {ph}, (s.threads t).section? = some op → op.isEntry = false →
      ph.isBlocked on = false →
      Released on ({ s with threads := notifyAll on s.threads }.setThread t ph) :=
    fun hop late new => ⟨first.stopped hop late,
      forall_update (Q := fun ph => Phase.isBlocked on ph = false)
        (count_eq_zero.mp notifyAll_blocked) new⟩
  cases hs with
  | @call t op _ hop =>
    refine .inr ?_
    cases op with
    | stopNotEmpty => cases hop
    | _ => exact update t ⟨nofun, nofun⟩
  | @spurious t op ht =>
    refine .inr (forall_update none (wake op ?_))
    rw [← ht]
    exact none t
  | @ret t => exact .inr (update t ⟨nofun, nofun⟩)
  | @wait t w op hop hb =>
    refine .inr ?_
    cases op with
    | stopNotEmpty => cases hb
    | _ => exact update t ⟨nofun, nofun⟩
  | @stopped t w op r _ hr =>
    refine .inr (update t ⟨?_, nofun⟩)
    rintro ⟨⟩
    cases op <;> cases hr
  | @put t _ _ _ _ _ _ hn => exact .inr (hn.forall (update t ⟨nofun, nofun⟩) wake)
  | @take t _ _ _ _ _ _ _ hn => exact .inr (hn.forall (update t ⟨nofun, nofun⟩) wake)
  | @takeList t _ _ _ _ _ hn => exact .inr (hn.forall (update t ⟨nofun, nofun⟩) wake)
  | @stop t => exact .inr (update t ⟨nofun, nofun⟩)
  | stopNotFull hop =>
    rcases full with rfl | there
    · exact .inl (sent hop rfl rfl)
    · exact .inr (forall_update (forall_notifyAll _ none wake) there)
  | @stopNotEmpty t w hop =>
    rcases empty with rfl | before
    · exact .inl (sent hop rfl rfl)
    · exact absurd hop (before _ (none t))

theorem StopReleases.step (h : StopReleases s) (first : StopFirst s) (hs : Step s a s') :
    StopReleases s' :=
  released_or_step h first hs (fun _ early => early.1) (fun _ _ => nofun) (.inr nofun) (.inl rfl)

theorem StopReleasesPut.step (h : StopReleasesPut s) (first : StopFirst s) (hs : Step s a s') :
    StopReleasesPut s' := by
  refine released_or_step h first hs (fun _ early => early) ?_ (.inl rfl) (.inr ?_)
  · exact fun _ h => ⟨nofun, h.2⟩
  · exact fun _ h hop => h.2 (Phase.op?_of_section hop)

theorem reach_stopReleases {maxSize : Int} (h : Reach step (State.init maxSize) s) :
    StopReleases s := by
  refine h.invariant (I := StopReleases) (.inr nofun) ?_
  exact fun _ _ _ hr ih _ hs => ih.step (reach_stopFirst hr) (step_cases hs)

theorem reach_stopReleasesPut {maxSize : Int} (h : Reach step (State.init maxSize) s) :
    StopReleasesPut s := by
  refine h.invariant (I := StopReleasesPut) (.inr fun _ => ⟨nofun, nofun⟩) ?_
  exact fun _ _ _ hr ih _ hs => ih.step (reach_stopFirst hr) (step_cases hs)

theorem released_of_returned {maxSize : Int} (h : Reach step (State.init maxSize) s) {t : ι}
    (ht : s.threads t = .returned .stop) : Released Op.onNotEmpty s :=
  (reach_stopReleases h).resolve_right fun none => none t ht

theorem releasedPut_of_returned {maxSize : Int} (h : Reach step (State.init maxSize) s) {t : ι}
    (ht : s.threads t = .returned .stop) : Released Op.onNotFull s :=
  (reach_stopReleasesPut h).resolve_right fun none => (none t).1 ht

theorem released_of_reach {on : Op T → Bool} (h : Released on s) (hr : Reach step s s') :
    Released on s' :=
  hr.invariant (I := Released on) h fun _ _ _ _ ih _ hs => ih.step (step_cases hs)

omit [Fintype ι] in
theorem q_of_stopped (stopped : s.q.needStop = true) (hs : Step s a s') : s'.q = s.q := by
  cases hs with
  | @call t op => cases op <;> rfl
  | put _ go => cases stopped.symm.trans go
  | take _ go => cases stopped.symm.trans go
  | takeList _ go => cases stopped.symm.trans go
  | @stop t =>
    change { s.q with needStop := true } = s.q
    rw [← stopped]
  | _ => rfl

theorem q_of_reach (stopped : s.q.needStop = true) (hr : Reach step s s') : s'.q = s.q := by
  refine hr.invariant (I := fun u => u.q = s.q) rfl ?_
  intro u b u' _ same _ hs
  rw [← same] at stopped
  exact (q_of_stopped stopped (step_cases hs)).trans same

/-- `Stop` is final: from its return on nobody is blocked and nobody will block, and the queue is
what it was when `m_needStop` was set, or at any time since. -/
theorem stop_is_final {maxSize : Int} {set u : State ι T} {t : ι}
    (h : Reach step (State.init maxSize) set) (stopped : set.q.needStop = true)
    (hr : Reach step set s) (back : s.threads t = .returned .stop) (later : Reach step s u) :
    (∀ v, (u.threads v).isBlocked Op.onNotFull = false ∧
      (u.threads v).isBlocked Op.onNotEmpty = false) ∧
    (∀ op : Op T, op.blocks u.q = false) ∧ u.q.queue = set.q.queue := by
  have reached := h.trans hr
  have full := released_of_reach (releasedPut_of_returned reached back) later
  have empty := released_of_reach (released_of_returned reached back) later
  refine ⟨fun v => ⟨full.nobody v, empty.nobody v⟩, Op.not_blocks full.needStop, ?_⟩
  exact congrArg Queue.queue (q_of_reach stopped (hr.trans later))

theorem stop_is_final_of_three : ∃ set u : State (Fin 3) Nat,
    (set.threads 1 = .blocked (.put 8) ∧ u.threads 1 = .returned .put ∧
      u.threads 2 = .returned (.take none)) ∧
    (∀ v, (u.threads v).isBlocked Op.onNotFull = false ∧
      (u.threads v).isBlocked Op.onNotEmpty = false) ∧
    (∀ op : Op Nat, op.blocks u.q = false) ∧ u.q.queue = set.q.queue := by
  obtain ⟨set, h, hset⟩ := exists_reach step (State.init 1)
    [.call 0 (.put 7), .run 0 none, .ret 0, .call 1 (.put 8), .run 1 none, .call 0 .stop,
      .run 0 none]
    (fun set : State (Fin 3) Nat =>
      decide (set.q.needStop = true ∧ set.threads 1 = .blocked (.put 8)) &&
      (runIf step (fun _ _ => True) set [.run 0 none, .run 0 none]).any
        fun s : State (Fin 3) Nat => decide (s.threads 0 = .returned .stop) &&
          (runIf step (fun _ _ => True) s [.ret 0, .run 1 none, .call 2 .take, .run 2 none]).any
            fun u : State (Fin 3) Nat => decide (u.threads 1 = .returned .put ∧
              u.threads 2 = .returned (.take none))) (by decide)
  obtain ⟨hset, hs⟩ := Bool.and_eq_true_iff.mp hset
  obtain ⟨stopped, blocked⟩ := of_decide_eq_true hset
  obtain ⟨s, hr, hs⟩ := exists_reach step set _ _ hs
  obtain ⟨back, hu⟩ := Bool.and_eq_true_iff.mp hs
  obtain ⟨u, later, hu⟩ := exists_reach step s _ _ hu
  exact ⟨set, u, ⟨blocked, of_decide_eq_true hu⟩,
    stop_is_final h stopped hr (of_decide_eq_true back) later⟩

end Leano.SyncQueue
