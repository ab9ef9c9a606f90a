import Leano.ConditionQueue.Defs

universe u v

namespace Leano.ConditionQueue

open Leano.Lib

variable {ι : Type v} {P : Type u} [Fintype ι] [DecidableEq ι] {s s' : State ι P} {a : Act ι P}

def Op.isTimed : Op P → Bool
  | .waitTimeoutPop _ => true
  | .timedOut => true
  | _ => false

/-- A call of `wait_timeout_pop` that comes back next, and without an element, does so on an empty
queue. -/
def Truthful (s : State ι P) : Prop :=
  ∀ t w op s', (s.threads t).section? = some op → op.isTimed = true →
    step s (.run t w) = some s' → s'.threads t = .returned (.pop none false) →
    s.q.dataqueue = []

def State.Expired (s : State ι P) (t : ι) : Prop := (s.threads t).section? = some .timedOut

/-- No timer expires beside an element, and nothing is pushed beside a thread whose timer has
expired. -/
def Undisturbed (s : State ι P) (a : Act ι P) : Prop :=
  (∀ t, a = .timeout t → s.q.dataqueue = []) ∧
    ∀ t w data, a = .run t w → (s.threads t).section? = some (.push data) → ∀ u, ¬ s.Expired u

section threads

variable {t u : ι} {ph : Phase (Op P) (Res P)}

omit [Fintype ι] in
theorem threads_setThread :
    (s.setThread t ph).threads u = if u = t then ph else s.threads u :=
  Function.update_apply _ _ _ _

omit [Fintype ι] in
theorem forall_setThread {Q : Phase (Op P) (Res P) → Prop} (all : ∀ u, Q (s.threads u))
    (h : Q ph) : ∀ u, Q ((s.setThread t ph).threads u) := by
  intro u
  rw [threads_setThread]
  split
  · exact h
  · exact all u

omit [Fintype ι] in
theorem expired_setThread (hph : ph.section? ≠ some .timedOut)
    (h : (s.setThread t ph).Expired u) : s.Expired u := by
  unfold State.Expired at h
  rw [threads_setThread] at h
  split at h
  · exact absurd h hph
  · exact h

end threads

def Waits (ph : Phase (Op P) (Res P)) : Prop := ∀ op, ph = .blocked op → op.waits = true

theorem waits_of_step (all : ∀ t, Waits (s.threads t)) (hs : step s a = some s') :
    ∀ t, Waits (s'.threads t) := by
  cases step_cases hs with
  | call => exact forall_setThread all (by simp [Waits])
  | spurious => exact forall_setThread all (by simp [Waits])
  | timeout => exact forall_setThread all (by simp [Waits])
  | @ret t r =>
    have idle : Waits (.idle : Phase (Op P) (Res P)) := by simp [Waits]
    unfold State.giveBack
    split
    · exact forall_setThread all idle
    · exact forall_setThread all idle
  | push => exact forall_setThread all (by simp [Waits])
  | signal _ hn =>
    exact forall_setThread (hn.forall all fun _ _ => by simp [Waits]) (by simp [Waits])
  | pop => exact forall_setThread all (by simp [Waits])
  | wait _ hop => exact forall_setThread all (by simpa [Waits] using hop)
  | clean => exact forall_setThread all (by simp [Waits])
  | broadcast =>
    exact forall_setThread (forall_notifyAll _ all fun _ _ => by simp [Waits]) (by simp [Waits])
  | other => exact forall_setThread all (by simp [Waits])

theorem waits_of_reach (h : Reach step State.init s) : ∀ t, Waits (s.threads t) :=
  h.invariant (I := fun s => ∀ t, Waits (s.threads t)) (by simp [State.init, Waits])
    fun _ _ _ _ all _ hs => waits_of_step all hs

theorem expired_of_nothing {t : ι} {w : Option ι} {op : Op P}
    (hop : (s.threads t).section? = some op) (timed : op.isTimed = true)
    (hs : step s (.run t w) = some s') (nothing : s'.threads t = .returned (.pop none false)) :
    s.Expired t := by
  obtain ⟨op', hop', h⟩ := Option.bind_eq_some_iff.mp hs
  cases hop.symm.trans hop'
  cases op with
  | waitTimeoutPop timeout =>
    cases h
    simp only [State.waitTimeoutPop] at nothing
    split at nothing
    · rw [threads_setThread, if_pos rfl] at nothing
      cases nothing
    · rw [State.popFront, threads_setThread, if_pos rfl] at nothing
      cases nothing
  | timedOut => exact hop
  | _ => cases timed

theorem step_timedOut {t : ι} (h : s.Expired t) :
    step s (.run t none) = some (s.setThread t (.returned (.pop none false))) :=
  Option.bind_eq_some_iff.mpr ⟨_, h, rfl⟩

theorem truthful_iff : Truthful s ↔ ∀ t, s.Expired t → s.q.dataqueue = [] := by
  constructor
  · intro truthful t expired
    refine truthful t none .timedOut _ expired rfl (step_timedOut expired) ?_
    rw [threads_setThread, if_pos rfl]
  · intro empty t w op s' hop timed hs nothing
    exact empty t (expired_of_nothing hop timed hs nothing)

theorem truthful_of_empty (hq : s.q.dataqueue = []) : Truthful s :=
  truthful_iff.mpr fun _ _ => hq

theorem expired_of_step (all : ∀ t, Waits (s.threads t)) (hs : step s a = some s') {u : ι}
    (h : s'.Expired u) : s.Expired u ∨ a = .timeout u := by
  have wake (op : Op P) (hop : Waits (.blocked op : Phase (Op P) (Res P))) :
      (Phase.woken op : Phase (Op P) (Res P)).section? ≠ some .timedOut := by
    rintro ⟨⟩
    cases hop _ rfl
  cases step_cases hs with
  | call _ hop =>
    refine .inl (expired_setThread ?_ h)
    rintro ⟨⟩
    cases hop
  | spurious ht => exact .inl (expired_setThread (wake _ (ht ▸ all _)) h)
  | @timeout t =>
    by_cases same : u = t
    · exact .inr (by rw [same])
    · unfold State.Expired at h
      rw [threads_setThread, if_neg same] at h
      exact .inl h
  | ret =>
    unfold State.giveBack at h
    split at h
    · exact .inl (expired_setThread (by simp [Phase.section?]) h)
    · exact .inl (expired_setThread (by simp [Phase.section?]) h)
  | push => exact .inl (expired_setThread (by simp [Phase.section?]) h)
  | signal _ hn =>
    have h := expired_setThread (by simp [Phase.section?]) h
    obtain same | ⟨op, blocked, woken⟩ := hn.at u
    · exact .inl ((congrArg Phase.section? same).symm.trans h)
    · exact absurd (woken ▸ h) (wake op (blocked ▸ all u))
  | pop => exact .inl (expired_setThread (by simp [Phase.section?]) h)
  | wait => exact .inl (expired_setThread (by simp [Phase.section?]) h)
  | clean => exact .inl (expired_setThread (by simp [Phase.section?]) h)
  | broadcast =>
    have h := expired_setThread (by simp [Phase.section?]) h
    obtain same | ⟨op, blocked, woken⟩ := notifyAll_at Op.waits s.threads u
    · exact .inl ((congrArg Phase.section? same).symm.trans h)
    · exact absurd (woken ▸ h) (wake op (blocked ▸ all u))
  | other => exact .inl (expired_setThread (by simp [Phase.section?]) h)

theorem empty_of_step (hs : step s a = some s') (hq : s.q.dataqueue = [])
    (quiet : ∀ t w data, a = .run t w → (s.threads t).section? ≠ some (.push data)) :
    s'.q.dataqueue = [] := by
  cases step_cases hs with
  | ret =>
    unfold State.giveBack
    split
    · exact hq
    · exact hq
  | push hop => exact absurd hop (quiet _ _ _ rfl)
  | pop _ _ hq' => cases hq.symm.trans hq'
  | clean => rfl
  | _ => exact hq

theorem step_push {t : ι} {w : Option ι} {data : Option P}
    (hop : (s.threads t).section? = some (.push data)) :
    step s (.run t w) = some (s.push t data) := Option.bind_eq_some_iff.mpr ⟨_, hop, rfl⟩

theorem truthful_push {t : ι} {data : Option P}
    (hop : (s.threads t).section? = some (.push data)) :
    Truthful (s.push t data) ↔ ∀ u, ¬ s.Expired u := by
  rw [truthful_iff]
  refine forall_congr' fun u => ?_
  have kept : (s.push t data).Expired u ↔ s.Expired u := by
    refine ⟨expired_setThread (by simp [Phase.section?]), fun h => ?_⟩
    have ne : u ≠ t := by
      rintro rfl
      cases hop.symm.trans h
    exact (congrArg Phase.section? ((threads_setThread).trans (if_neg ne))).trans h
  rw [kept]
  simp [State.push, State.setThread]

theorem Truthful.step (h : Truthful s) (all : ∀ t, Waits (s.threads t))
    (hs : step s a = some s') : Truthful s' ↔ Undisturbed s a := by
  by_cases pushes : ∃ t w data, a = .run t w ∧ (s.threads t).section? = some (.push data)
  · obtain ⟨t, w, data, rfl, hop⟩ := pushes
    obtain rfl := Option.some.inj ((step_push hop).symm.trans hs)
    rw [truthful_push hop]
    constructor
    · exact fun clear => ⟨fun _ timer => (by cases timer), fun _ _ _ _ _ => clear⟩
    · exact fun undisturbed => undisturbed.2 t w data rfl hop
  · push Not at pushes
    constructor
    · intro truthful
      refine ⟨?_, fun t w data run hop => absurd hop (pushes t w data run)⟩
      rintro t rfl
      cases step_cases hs with
      | timeout =>
        have woken : (s.setThread t (.woken .timedOut)).threads t = .woken .timedOut :=
          threads_setThread.trans (if_pos rfl)
        have empty := truthful_iff.mp truthful t (congrArg Phase.section? woken)
        exact empty
    · rintro ⟨timer, -⟩
      refine truthful_iff.mpr fun u expired => empty_of_step hs ?_ pushes
      rcases expired_of_step all hs expired with before | fired
      · exact truthful_iff.mp h u before
      · exact timer u fired

theorem truthful_init : Truthful (State.init : State ι P) := truthful_of_empty rfl

/-- In every run, `wait_timeout_pop` is ready to come back with nothing on an empty queue only,
exactly if none of its steps disturbs an expired call. -/
theorem truthful_along (acts : List (Act ι P)) :
    Along step Truthful State.init acts ↔
      EveryStep step (fun s a _ => Undisturbed s a) State.init acts :=
  along_iff_everyStep truthful_init fun _ _ _ hr h hs => h.step (waits_of_reach hr) hs

/-- The timer of the first caller expires, and before it has the mutex again the second pushes. -/
theorem nothing_beside_push : ¬ ∀ s : State (Fin 2) Nat, Reach step State.init s → Truthful s := by
  intro all
  obtain ⟨s, hs, hp⟩ := exists_reach step State.init
    [.call 0 (.waitTimeoutPop 1), .run 0 none, .timeout 0, .call 1 (.push (some 7)), .run 1 none]
    (fun s : State (Fin 2) Nat => decide (s.threads 0 = .woken .timedOut ∧
      s.q.dataqueue = [some 7])) (by decide)
  obtain ⟨expired, queue⟩ := of_decide_eq_true hp
  have empty := truthful_iff.mp (all s hs) 0 (congrArg Phase.section? expired)
  cases queue.symm.trans empty

end Leano.ConditionQueue
