import Leano.SyncQueue.Wakeup

universe u v

namespace Leano.SyncQueue

open Leano.Lib

variable {ι : Type v} {T : Type u} [Fintype ι]

def State.free (s : State ι T) : Nat := toSize s.q.maxSize - s.q.queue.length

def Served (s : State ι T) : Prop := 0 < s.waiting Op.onNotFull → s.free ≤ s.awake Op.onNotFull

structure Stranded (s : State ι T) : Prop where
  go : s.q.needStop = false
  notFull : s.q.notFull = true
  blocked : ∃ t, (s.threads t).isBlocked Op.onNotFull = true
  asleep : ∀ t, (s.threads t).isWoken Op.onNotFull = false

theorem Served.not_stranded {s : State ι T} (h : Served s) : ¬ Stranded s := by
  rintro ⟨-, room, blocked, asleep⟩
  have served := h (count_pos.mpr blocked)
  have none : s.awake Op.onNotFull = 0 := count_eq_zero.mpr asleep
  simp only [Queue.notFull, Bool.not_eq_true', decide_eq_false_iff_not] at room
  unfold State.free at served
  omega

/-- A batch `Take` leaves nobody blocked, or brings the woken producers up to one for each slot. -/
def WakesEnough (s : State ι T) : Act ι T → Prop
  | .run t _ => (s.threads t).section? = some .takeList → s.q.needStop = false → s.q.queue ≠ [] →
      s.waiting Op.onNotFull ≤ 1 ∨ toSize s.q.maxSize ≤ s.awake Op.onNotFull + 1
  | _ => True

instance [DecidableEq T] (s : State ι T) : (a : Act ι T) → Decidable (WakesEnough s a)
  | .run _ _ => inferInstanceAs (Decidable (_ → _ → _ → _ ∨ _))
  | .call _ _ => isTrue trivial
  | .spurious _ => isTrue trivial
  | .ret _ => isTrue trivial

variable {s s' : State ι T} {a : Act ι T}

theorem Served.mono (hI : Served s) (free : s'.free ≤ s.free)
    (waiting : s'.waiting Op.onNotFull ≤ s.waiting Op.onNotFull)
    (awake : s.awake Op.onNotFull ≤ s'.awake Op.onNotFull) : Served s' := by
  intro hw
  exact free.trans ((hI (hw.trans_le waiting)).trans awake)

theorem Op.apart' {op : Op T} (h : op.onNotEmpty = true) : op.onNotFull = false := by
  cases op <;> first | rfl | cases h

variable [DecidableEq ι]

theorem Served.wait {t : ι} {op : Op T} (hI : Served s)
    (hs : (s.threads t).section? = some op) (hb : op.blocks s.q = true) :
    Served (s.setThread t (.blocked op)) := by
  have hf := counts_section hs (.blocked op) Op.onNotFull
  simp only [Phase.isBlocked, Phase.isWoken, Bool.toNat_false] at hf
  obtain ⟨-, -, full⟩ | ⟨hop, -, -⟩ := Op.blocks_length hb
  · intro _
    have none : (s.setThread t (.blocked op)).free = 0 := Nat.sub_eq_zero_of_le full
    rw [none]
    exact Nat.zero_le _
  · simp only [hop, Bool.toNat_false] at hf
    exact hI.mono le_rfl hf.1.le hf.2.2

theorem Served.put {t : ι} {x : T} {th : Threads ι T} (hI : Served s)
    (hs : (s.threads t).section? = some (.put x)) (room : s.q.notFull = true)
    (hn : Notified Op.onNotEmpty (s.setThread t (.returned .put)).threads th) :
    Served { s with
      q := { s.q with queue := s.q.queue ++ [x] }
      enqueued := s.enqueued ++ [x]
      threads := th } := by
  have hf := counts_section hs (.returned .put) Op.onNotFull
  have hother := hn.counts_other Op.onNotFull fun _ => Op.apart'
  simp only [Phase.isBlocked, Phase.isWoken, Op.onNotFull, Bool.toNat_false, Bool.toNat_true] at hf
  simp only [Queue.notFull, Bool.not_eq_true', decide_eq_false_iff_not] at room
  intro hw
  simp only [Served, State.waiting, State.awake, State.free, List.length_append,
    List.length_singleton] at *
  omega

theorem Served.taken {t : ι} {op : Op T} {r : Res T} {th : Threads ι T} {rest : List T}
    {log : List (ι × T)} (hs : (s.threads t).section? = some op) (hop : op.onNotFull = false)
    (hn : Notified Op.onNotFull (s.setThread t (.returned r)).threads th)
    (enough : 1 < s.waiting Op.onNotFull →
      toSize s.q.maxSize - rest.length ≤ s.awake Op.onNotFull + 1) :
    Served { s with q := { s.q with queue := rest }, taken := log, threads := th } := by
  have hf := counts_section hs (.returned r) Op.onNotFull
  simp only [Phase.isBlocked, Phase.isWoken, hop, Bool.toNat_false] at hf
  intro hw
  simp only [State.waiting, State.awake, State.free] at *
  obtain ⟨_, _⟩ | ⟨rfl, _⟩ := hn.counts <;> omega

theorem Served.step (first : StopFirst s) (hI : s.q.needStop = false → Served s)
    (enough : WakesEnough s a) (hs : step s a = some s') (go : s'.q.needStop = false) :
    Served s' := by
  cases step_cases hs with
  | @call t op ht =>
    have hI : Served s := hI (by cases op <;> exact go)
    have hO : Served (s.offer op) := by cases op <;> exact hI
    have idle : (s.offer op).threads t = .idle := by cases op <;> exact ht
    have hf := counts_setThread (s.offer op) t (.ready op) Op.onNotFull
    simp only [idle, Phase.isBlocked, Phase.isWoken, Bool.toNat_false] at hf
    exact hO.mono le_rfl hf.1.le hf.2.ge
  | @spurious t op ht =>
    have hf := counts_setThread s t (.woken op) Op.onNotFull
    simp only [ht, Phase.isBlocked, Phase.isWoken, Bool.toNat_false] at hf
    exact (hI go).mono le_rfl (by omega) (by omega)
  | @ret t r ht =>
    have hf := counts_setThread s t .idle Op.onNotFull
    simp only [ht, Phase.isBlocked, Phase.isWoken, Bool.toNat_false] at hf
    exact (hI go).mono le_rfl hf.1.le hf.2.ge
  | wait hop hb => exact (hI go).wait hop hb
  | stopped _ _ stop => exact absurd (stop.symm.trans go) (by simp)
  | put hop _ room hn => exact (hI go).put hop room hn
  | @take t w x rest th hop _ hq hn =>
    refine .taken hop rfl hn fun blocked => ?_
    have served := hI go (by omega)
    simp only [State.free, hq, List.length_cons] at served
    omega
  | takeList hop run hq hn =>
    refine .taken hop rfl hn fun blocked => ?_
    simp only [List.length_nil, Nat.sub_zero]
    exact (enough hop run hq).resolve_left (Nat.not_le_of_lt blocked)
  | stop => cases go
  | stopNotFull hop => cases (first go _).of_section hop
  | stopNotEmpty hop => cases (first go _).of_section hop

theorem reach_served {maxSize : Int} (h : ReachIf step WakesEnough (State.init maxSize) s)
    (go : s.q.needStop = false) : Served s := by
  refine h.invariant (I := fun s => s.q.needStop = false → Served s) ?_ ?_ go
  · intro _ hw
    obtain ⟨t, ht⟩ := count_pos.mp hw
    cases ht
  · intro s a s' hr hI enough hs
    exact Served.step (reach_stopFirst hr.reach) hI enough hs

theorem put_of_woken {t : ι} {x : T} (ht : s.threads t = .woken (.put x))
    (go : s.q.needStop = false) (room : s.q.notFull = true) :
    ∃ w s', step s (.run t w) = some s' ∧ s'.q = { s.q with queue := s.q.queue ++ [x] } ∧
      s'.waiting Op.onNotFull = s.waiting Op.onNotFull ∧
      s'.awake Op.onNotFull + 1 = s.awake Op.onNotFull := by
  obtain ⟨w, th, hth⟩ := exists_notifyOne Op.onNotEmpty (s.setThread t (.returned .put)).threads
  have hf := counts_setThread s t (.returned .put) Op.onNotFull
  have hother := (notified_of_notifyOne hth).counts_other Op.onNotFull fun _ => Op.apart'
  simp only [ht, Phase.isBlocked, Phase.isWoken, Op.onNotFull, Bool.toNat_false,
    Bool.toNat_true] at hf
  have puts : step s (.run t w) = some { s with
      q := { s.q with queue := s.q.queue ++ [x] }
      enqueued := s.enqueued ++ [x]
      threads := th } := by
    have may : s.q.mayAdd = true := by rw [Queue.mayAdd, room, Bool.or_true]
    simp only [step, ht, Phase.section?, Option.bind_some, State.critical, State.add, may, go,
      if_true, Bool.false_eq_true, if_false, State.notify]
    exact Option.map_eq_some_iff.mpr ⟨th, hth, rfl⟩
  refine ⟨w, _, puts, rfl, hother.1.trans hf.1, ?_⟩
  exact (congrArg (· + 1) hother.2).trans hf.2

theorem exists_stranded (n : Nat) (go : s.q.needStop = false)
    (awake : s.awake Op.onNotFull = n) (waiting : 0 < s.waiting Op.onNotFull)
    (room : s.q.queue.length + n < toSize s.q.maxSize) :
    ∃ t, ReachIf step WakesEnough s t ∧ Stranded t := by
  induction n generalizing s with
  | zero =>
    refine ⟨s, .start, go, ?_, count_pos.mp waiting, count_eq_zero.mp awake⟩
    simpa [Queue.notFull] using room
  | succ n ih =>
    obtain ⟨t, ht⟩ := count_pos.mp (show 0 < s.awake Op.onNotFull by omega)
    obtain ⟨x, ht⟩ : ∃ x, s.threads t = .woken (.put x) := by
      cases hp : s.threads t with
      | woken op => cases op <;> simp [hp, Phase.isWoken, Op.onNotFull] at ht ⊢
      | _ => simp [hp, Phase.isWoken] at ht
    have free : s.q.notFull = true := by
      simp only [Queue.notFull, Bool.not_eq_true', decide_eq_false_iff_not]
      omega
    obtain ⟨w, s', puts, queue, waiting', awake'⟩ := put_of_woken ht go free
    obtain ⟨u, hu, stranded⟩ := ih (s := s') (by rw [queue]; exact go) (by omega) (by omega) (by
      rw [queue]
      simp only [List.length_append, List.length_singleton]
      omega)
    refine ⟨u, .trans (.next .start ?_ puts) hu, stranded⟩
    simp [WakesEnough, ht, Phase.section?]

theorem stranded_of_takeList (hs : step s a = some s') (few : ¬ WakesEnough s a) :
    ∃ t, ReachIf step WakesEnough s' t ∧ Stranded t := by
  cases a with
  | run t w =>
    simp only [WakesEnough, Classical.not_imp, not_or, not_le] at few
    obtain ⟨hop, go, hq, blocked, free⟩ := few
    cases step_cases hs with
    | @takeList t w th _ _ _ hn =>
      have hf := counts_section hop (.returned (.takeList (some s.q.queue))) Op.onNotFull
      have woken := hn.counts
      simp only [Phase.isBlocked, Phase.isWoken, Op.onNotFull, Bool.toNat_false] at hf
      simp only [State.waiting, State.awake] at hf blocked free
      refine exists_stranded _ go rfl ?_ ?_
      · simp only [State.waiting, State.setThread] at *
        omega
      · simp only [State.awake, State.setThread, List.length_nil] at *
        omega
    | wait hop' hb =>
      cases hop.symm.trans hop'
      simp [Op.blocks, Queue.mayTake, Queue.notEmpty, hq] at hb
    | stopped _ _ stop => exact absurd (stop.symm.trans go) (by simp)
    | _ hop' => cases hop.symm.trans hop'
  | _ => exact absurd trivial few

/-- Before `Stop` no free slot is stranded while every batch `Take` wakes enough producers; the
first that does not is followed by a run of the woken ones into a stranded slot. -/
theorem no_stranded_slot {maxSize : Int} (h : ReachIf step WakesEnough (State.init maxSize) s) :
    (s.q.needStop = false → s.q.notFull = true →
      (∃ t, (s.threads t).isBlocked Op.onNotFull = true) →
      ∃ t, (s.threads t).isWoken Op.onNotFull = true) ∧
    ∀ a s', step s a = some s' →
      ((∀ t, ReachIf step WakesEnough s' t → ¬ Stranded t) ↔ WakesEnough s a) := by
  constructor
  · intro go room blocked
    by_contra asleep
    refine (reach_served h go).not_stranded ⟨go, room, blocked, ?_⟩
    simpa using asleep
  · intro a s' hs
    constructor
    · intro never
      by_contra few
      obtain ⟨t, ht, stranded⟩ := stranded_of_takeList hs few
      exact never t ht stranded
    · intro enough t ht stranded
      have reached := (h.next enough hs).trans ht
      exact (reach_served reached stranded.go).not_stranded stranded

theorem no_stranded_slot_of_three :
    ∃ s : State (Fin 3) Nat, (s.q.queue = [] ∧ s.threads 1 = .woken (.put 8)) ∧
      (s.q.needStop = false → s.q.notFull = true →
        (∃ t, (s.threads t).isBlocked Op.onNotFull = true) →
        ∃ t, (s.threads t).isWoken Op.onNotFull = true) ∧
      ∀ a s', step s a = some s' →
        ((∀ t, ReachIf step WakesEnough s' t → ¬ Stranded t) ↔ WakesEnough s a) := by
  obtain ⟨s, hs, hp⟩ := exists_reachIf step WakesEnough (State.init 1)
    [.call 0 (.put 7), .run 0 none, .call 1 (.put 8), .run 1 none, .call 2 .takeList,
      .run 2 (some 1)]
    (fun s : State (Fin 3) Nat =>
      decide (s.q.queue = [] ∧ s.threads 1 = .woken (.put 8))) (by decide)
  exact ⟨s, of_decide_eq_true hp, no_stranded_slot hs⟩

/-- Two producers are blocked when a consumer takes both elements; the one it wakes fills one of
the two slots, and the other stays blocked beside the second. -/
theorem slot_stranded_of_takeList :
    ¬ ∀ s : State (Fin 3) Nat, Reach step (State.init 2) s → s.q.needStop = false →
      s.q.notFull = true → (∃ t, (s.threads t).isBlocked Op.onNotFull = true) →
      ∃ t, (s.threads t).isWoken Op.onNotFull = true := by
  intro all
  obtain ⟨s, hs, hp⟩ := exists_reach step (State.init 2)
    [.call 0 (.put 5), .run 0 none, .ret 0, .call 0 (.put 6), .run 0 none, .ret 0,
      .call 0 (.put 7), .run 0 none, .call 1 (.put 8), .run 1 none, .call 2 .takeList,
      .run 2 (some 0), .run 0 none]
    (fun s : State (Fin 3) Nat => decide ((s.q.needStop = false ∧ s.q.notFull = true) ∧
      (s.threads 1).isBlocked Op.onNotFull = true ∧
      ∀ t, (s.threads t).isWoken Op.onNotFull = false)) (by decide)
  obtain ⟨⟨go, room⟩, blocked, asleep⟩ := of_decide_eq_true hp
  obtain ⟨t, ht⟩ := all s hs go room ⟨1, blocked⟩
  exact absurd ht (by rw [asleep t]; decide)

end Leano.SyncQueue
