import Leano.SyncQueue.Order

/-! Pending wake-ups: before `Stop` no element waits beside blocked consumers that nobody wakes,
and no blocked producer waits beside an empty queue that nobody fills. -/

universe u v

namespace Leano.SyncQueue

open Leano.Lib

variable {ι : Type v} {T : Type u} [Fintype ι] {s s' : State ι T} {a : Act ι T}

def State.waiting (s : State ι T) (on : Op T → Bool) : Nat := count (Phase.isBlocked on) s.threads

def State.awake (s : State ι T) (on : Op T → Bool) : Nat := count (Phase.isWoken on) s.threads

/-- While consumers are blocked every queued element has a woken consumer, and an empty queue with
blocked producers has a woken producer. -/
structure Wakes (s : State ι T) : Prop where
  consumers : 0 < s.waiting Op.onNotEmpty → s.q.queue.length ≤ s.awake Op.onNotEmpty
  producers : s.q.queue.length = 0 → 0 < s.waiting Op.onNotFull → 0 < s.awake Op.onNotFull

theorem Wakes.init {maxSize : Int} : Wakes (State.init maxSize : State ι T) where
  consumers := fun _ => Nat.zero_le _
  producers := by
    intro _ h
    obtain ⟨t, ht⟩ := count_pos.mp h
    cases ht

variable [DecidableEq ι]

theorem counts_setThread (s : State ι T) (t : ι) (ph : Phase (Op T) (Res T)) (on : Op T → Bool) :
    (s.setThread t ph).waiting on + ((s.threads t).isBlocked on).toNat =
      s.waiting on + (ph.isBlocked on).toNat ∧
    (s.setThread t ph).awake on + ((s.threads t).isWoken on).toNat =
      s.awake on + (ph.isWoken on).toNat :=
  ⟨count_update _ _ _ _, count_update _ _ _ _⟩

theorem counts_section {t : ι} {op : Op T} (hs : (s.threads t).section? = some op)
    (ph : Phase (Op T) (Res T)) (on : Op T → Bool) :
    (s.setThread t ph).waiting on = s.waiting on + (ph.isBlocked on).toNat ∧
    (s.setThread t ph).awake on ≤ s.awake on + (ph.isWoken on).toNat ∧
    s.awake on + (ph.isWoken on).toNat ≤ (s.setThread t ph).awake on + (on op).toNat := by
  have h := counts_setThread s t ph on
  have woken := Phase.isWoken_of_section on hs
  rw [Phase.isBlocked_of_section on hs, Bool.toNat_false] at h
  omega

theorem Wakes.quiet {t : ι} {ph : Phase (Op T) (Res T)} (hI : Wakes s)
    (old : ∀ on, (s.threads t).isBlocked on = false ∧ (s.threads t).isWoken on = false)
    (new : ∀ on, ph.isBlocked on = false ∧ ph.isWoken on = false) : Wakes (s.setThread t ph) := by
  obtain ⟨hc, hp⟩ := hI
  have he := counts_setThread s t ph Op.onNotEmpty
  have hf := counts_setThread s t ph Op.onNotFull
  simp only [(old _).1, (old _).2, (new _).1, (new _).2, Bool.toNat_false] at he hf
  have hq : (s.setThread t ph).q = s.q := rfl
  constructor <;> rw [hq] <;> omega

theorem Wakes.spurious {t : ι} {op : Op T} (hI : Wakes s) (ht : s.threads t = .blocked op) :
    Wakes (s.setThread t (.woken op)) := by
  obtain ⟨hc, hp⟩ := hI
  have he := counts_setThread s t (.woken op) Op.onNotEmpty
  have hf := counts_setThread s t (.woken op) Op.onNotFull
  simp only [ht, Phase.isBlocked, Phase.isWoken, Bool.toNat_false] at he hf
  have hq : (s.setThread t (.woken op)).q = s.q := rfl
  constructor <;> rw [hq] <;> omega

theorem Op.apart {op : Op T} (h : op.onNotFull = true) : op.onNotEmpty = false := by
  cases op with
  | put x => rfl
  | _ => cases h

theorem Op.blocks_length {q : Queue T} {op : Op T} (hb : op.blocks q = true) :
    (op.onNotFull = true ∧ op.onNotEmpty = false ∧ toSize q.maxSize ≤ q.queue.length) ∨
    (op.onNotFull = false ∧ op.onNotEmpty = true ∧ q.queue.length = 0) := by
  cases op with
  | put x => exact .inl ⟨rfl, rfl, by simp_all [blocks, Queue.mayAdd, Queue.notFull]⟩
  | take => exact .inr ⟨rfl, rfl, by simp_all [blocks, Queue.mayTake, Queue.notEmpty]⟩
  | takeList => exact .inr ⟨rfl, rfl, by simp_all [blocks, Queue.mayTake, Queue.notEmpty]⟩
  | stop => cases hb
  | stopNotFull => cases hb
  | stopNotEmpty => cases hb

theorem Wakes.wait {t : ι} {op : Op T} (hI : Wakes s) (pos : 0 < toSize s.q.maxSize)
    (hs : (s.threads t).section? = some op) (hb : op.blocks s.q = true) :
    Wakes (s.setThread t (.blocked op)) := by
  obtain ⟨hc, hp⟩ := hI
  have he := counts_section hs (.blocked op) Op.onNotEmpty
  have hf := counts_section hs (.blocked op) Op.onNotFull
  simp only [Phase.isBlocked, Phase.isWoken, Bool.toNat_false] at he hf
  have hq : (s.setThread t (.blocked op)).q = s.q := rfl
  obtain ⟨hop, hop', hlen⟩ | ⟨hop, hop', hlen⟩ := Op.blocks_length hb
  all_goals
    simp only [hop, hop', Bool.toNat_true, Bool.toNat_false] at he hf
    constructor <;> rw [hq] <;> omega

theorem Wakes.put {t : ι} {x : T} {th : Threads ι T} (hI : Wakes s)
    (hs : (s.threads t).section? = some (.put x))
    (hn : Notified Op.onNotEmpty (s.setThread t (.returned .put)).threads th) :
    Wakes { s with
      q := { s.q with queue := s.q.queue ++ [x] }
      enqueued := s.enqueued ++ [x]
      threads := th } := by
  obtain ⟨hc, -⟩ := hI
  have he := counts_section hs (.returned .put) Op.onNotEmpty
  simp only [Phase.isBlocked, Phase.isWoken, Op.onNotEmpty, Bool.toNat_false] at he
  constructor
  · intro hw
    simp only [State.waiting, State.awake, List.length_append, List.length_singleton] at *
    obtain ⟨_, _⟩ | ⟨rfl, _⟩ := hn.counts <;> omega
  · simp

theorem Wakes.taken {t : ι} {op : Op T} {r : Res T} {th : Threads ι T} {rest : List T}
    {log : List (ι × T)} (hI : Wakes s) (hs : (s.threads t).section? = some op)
    (hop : op.onNotFull = false) (fewer : rest.length < s.q.queue.length)
    (hn : Notified Op.onNotFull (s.setThread t (.returned r)).threads th) :
    Wakes { s with q := { s.q with queue := rest }, taken := log, threads := th } := by
  obtain ⟨hc, -⟩ := hI
  have he := counts_section hs (.returned r) Op.onNotEmpty
  have hf := counts_section hs (.returned r) Op.onNotFull
  have hother := hn.counts_other Op.onNotEmpty fun _ => Op.apart
  have := Bool.toNat_le (op.onNotEmpty)
  simp only [Phase.isBlocked, Phase.isWoken, hop, Bool.toNat_false] at he hf
  constructor
  · intro hw
    simp only [State.waiting, State.awake] at *
    omega
  · intro _ hw
    simp only [State.waiting, State.awake] at *
    obtain ⟨_, _⟩ | ⟨rfl, _⟩ := hn.counts <;> omega

def Early (ph : Phase (Op T) (Res T)) : Prop := ∀ op, ph.op? = some op → op.isEntry = true

theorem Early.returned (r : Res T) : Early (.returned r) := fun _ h => by cases h

theorem Early.wake (op : Op T) (h : Early (.blocked op)) : Early (.woken op) := h

def StopFirst (s : State ι T) : Prop := s.q.needStop = false → ∀ t, Early (s.threads t)

theorem Early.of_section {ph : Phase (Op T) (Res T)} {op : Op T} (h : Early ph)
    (hs : ph.section? = some op) : op.isEntry = true :=
  h op (Phase.op?_of_section hs)

theorem StopFirst.step (hI : StopFirst s) (hs : step s a = some s') : StopFirst s' := by
  intro go
  cases step_cases hs with
  | @call t op _ hop =>
    have all : ∀ u, Early ((s.offer op).threads u) := by cases op <;> exact hI go
    apply forall_update all
    intro o ho
    cases ho
    exact hop
  | @spurious t op ht =>
    apply forall_update (Q := Early) (hI go)
    apply Early.wake
    rw [← ht]
    exact hI go t
  | ret => exact forall_update (Q := Early) (hI go) fun _ ho => by cases ho
  | @wait t w op hop _ =>
    apply forall_update (Q := Early) (hI go)
    intro o ho
    cases ho
    exact (hI go _).of_section hop
  | stopped _ _ stop => exact absurd (stop.symm.trans go) (by simp)
  | put _ _ _ hn => exact hn.forall (forall_update (Q := Early) (hI go) (.returned _)) Early.wake
  | take _ _ _ hn => exact hn.forall (forall_update (Q := Early) (hI go) (.returned _)) Early.wake
  | takeList _ _ _ hn =>
    exact hn.forall (forall_update (Q := Early) (hI go) (.returned _)) Early.wake
  | stop => cases go
  | stopNotFull hop => cases (hI go _).of_section hop
  | stopNotEmpty hop => cases (hI go _).of_section hop

theorem reach_stopFirst {maxSize : Int} (h : Reach step (State.init maxSize) s) : StopFirst s :=
  h.invariant (I := StopFirst) (fun _ _ _ ho => by cases ho) fun _ _ _ _ hI _ hs => hI.step hs

theorem Wakes.step (pos : 0 < toSize s.q.maxSize) (first : StopFirst s)
    (hI : s.q.needStop = false → Wakes s)
    (hs : step s a = some s') (go : s'.q.needStop = false) : Wakes s' := by
  cases step_cases hs with
  | @call t op ht =>
    have hI : Wakes s := hI (by cases op <;> exact go)
    have hO : Wakes (s.offer op) := by cases op <;> exact ⟨hI.consumers, hI.producers⟩
    apply hO.quiet
    · intro on
      have : (s.offer op).threads t = .idle := by cases op <;> exact ht
      rw [this]
      exact ⟨rfl, rfl⟩
    · exact fun _ => ⟨rfl, rfl⟩
  | spurious ht => exact (hI go).spurious ht
  | ret ht =>
    apply (hI go).quiet
    · intro on
      rw [ht]
      exact ⟨rfl, rfl⟩
    · exact fun _ => ⟨rfl, rfl⟩
  | wait hop hb => exact (hI go).wait pos hop hb
  | stopped _ _ stop => exact absurd (stop.symm.trans go) (by simp)
  | put hop _ _ hn => exact (hI go).put hop hn
  | take hop _ hq hn => exact (hI go).taken hop rfl (by simp [hq]) hn
  | takeList hop _ hq hn =>
    exact (hI go).taken hop rfl (by simpa [List.length_pos_iff] using hq) hn
  | stop => cases go
  | stopNotFull hop => cases (first go _).of_section hop
  | stopNotEmpty hop => cases (first go _).of_section hop

theorem reach_wakes {maxSize : Int} (pos : 1 ≤ maxSize) (h : Reach step (State.init maxSize) s)
    (go : s.q.needStop = false) : Wakes s := by
  refine h.invariant (I := fun s => s.q.needStop = false → Wakes s) (fun _ => Wakes.init) ?_ go
  intro s a s' hr hI _ hs
  have room : 0 < toSize s.q.maxSize := by
    rw [reach_maxSize hr, toSize_of_nonneg (by omega)]
    omega
  exact Wakes.step room (reach_stopFirst hr) hI hs

/-- No deadlock before `Stop`: whoever is blocked beside work to do has a companion under way. -/
theorem no_deadlock {maxSize : Int} (pos : 1 ≤ maxSize) (h : Reach step (State.init maxSize) s)
    (go : s.q.needStop = false) :
    (s.q.queue ≠ [] → (∃ t, (s.threads t).isBlocked Op.onNotEmpty = true) →
      ∃ t, (s.threads t).isWoken Op.onNotEmpty = true) ∧
    (s.q.queue = [] → (∃ t, (s.threads t).isBlocked Op.onNotFull = true) →
      ∃ t, (s.threads t).isWoken Op.onNotFull = true) ∧
    ((∃ t, (s.threads t).isBlocked Op.onNotEmpty = true) →
      (∃ t, (s.threads t).isBlocked Op.onNotFull = true) →
      ∃ t, (s.threads t).isWoken Op.onNotEmpty = true ∨
        (s.threads t).isWoken Op.onNotFull = true) := by
  have hI := reach_wakes pos h go
  have consumers : s.q.queue ≠ [] → (∃ t, (s.threads t).isBlocked Op.onNotEmpty = true) →
      ∃ t, (s.threads t).isWoken Op.onNotEmpty = true := by
    intro hq hb
    have := List.length_pos_iff.mpr hq
    exact count_pos.mp (this.trans_le (hI.consumers (count_pos.mpr hb)))
  have producers : s.q.queue = [] → (∃ t, (s.threads t).isBlocked Op.onNotFull = true) →
      ∃ t, (s.threads t).isWoken Op.onNotFull = true := by
    intro hq hb
    exact count_pos.mp (hI.producers (by rw [hq]; rfl) (count_pos.mpr hb))
  refine ⟨consumers, producers, ?_⟩
  intro hc hp
  by_cases hq : s.q.queue = []
  · obtain ⟨t, ht⟩ := producers hq hp
    exact ⟨t, .inr ht⟩
  · obtain ⟨t, ht⟩ := consumers hq hc
    exact ⟨t, .inl ht⟩

theorem no_deadlock_of_two :
    ∃ s : State (Fin 2) Nat, (s.q.queue = [7] ∧ (s.threads 1).isWoken Op.onNotEmpty = true) ∧
      (s.q.queue ≠ [] → (∃ t, (s.threads t).isBlocked Op.onNotEmpty = true) →
        ∃ t, (s.threads t).isWoken Op.onNotEmpty = true) ∧
      (s.q.queue = [] → (∃ t, (s.threads t).isBlocked Op.onNotFull = true) →
        ∃ t, (s.threads t).isWoken Op.onNotFull = true) ∧
      ((∃ t, (s.threads t).isBlocked Op.onNotEmpty = true) →
        (∃ t, (s.threads t).isBlocked Op.onNotFull = true) →
        ∃ t, (s.threads t).isWoken Op.onNotEmpty = true ∨
          (s.threads t).isWoken Op.onNotFull = true) := by
  obtain ⟨s, hs, hp⟩ := exists_reach step (State.init 1)
    [.call 1 .take, .run 1 none, .call 0 (.put 7), .run 0 (some 1)]
    (fun s : State (Fin 2) Nat => decide ((s.q.queue = [7] ∧
      (s.threads 1).isWoken Op.onNotEmpty = true) ∧ s.q.needStop = false)) (by decide)
  have hp := of_decide_eq_true hp
  exact ⟨s, hp.1, no_deadlock (by decide) hs hp.2⟩

end Leano.SyncQueue
