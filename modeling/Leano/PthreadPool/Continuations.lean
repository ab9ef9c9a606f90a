import Leano.PthreadPool.Stages

universe u v

namespace Leano.PthreadPool

open Leano.Lib

variable {n : Nat} {C : Type v} {M : Type u}

def Act.isCall : Act n C M → Bool
  | .start => true
  | .add _ _ => true
  | .destory _ => true
  | _ => false

def WorkerPc.sleeps : WorkerPc M → Bool
  | .wait => true
  | .blocked => true
  | .woken => true
  | _ => false

def WorkerPc.leaves : WorkerPc M → Bool
  | .unlockExit => true
  | .exited => true
  | _ => false

structure Keeps (s t : Pool n C M) : Prop where
  start : t.start = s.start
  shutdown : t.shutdown = s.shutdown
  waiting : ∀ c newMsg, s.client c = .lock newMsg → t.client c = .lock newMsg

theorem Keeps.refl (s : Pool n C M) : Keeps s s := ⟨rfl, rfl, fun _ _ h => h⟩

theorem Keeps.trans {s t u : Pool n C M} (h : Keeps s t) (k : Keeps t u) : Keeps s u where
  start := k.start.trans h.start
  shutdown := k.shutdown.trans h.shutdown
  waiting := fun c newMsg hc => k.waiting c newMsg (h.waiting c newMsg hc)

namespace Pool

def served (s : Pool n C M) (w : Fin n) (qMsg : M) (rest : List M) : Pool n C M :=
  { s with
    queueB := rest
    curQueueSize := s.curQueueSize - 1
    dequeued := s.dequeued ++ [(w, qMsg)]
    executed := s.executed ++ [(w, qMsg)]
    deleted := s.deleted ++ [(w, qMsg)] }

variable [DecidableEq C]

def added (s : Pool n C M) (c : C) (newMsg : M) : Pool n C M :=
  { s with
    queueB := s.queueB ++ [newMsg]
    submitted := s.submitted ++ [newMsg]
    curQueueSize := s.curQueueSize + 1 }.setClient c .signal

end Pool

/-- What the normal build keeps: nobody waits on `queue_ready`, and who leaves the pool does so
because of `shutdown`. -/
structure Normal (s : Pool n C M) : Prop where
  awake : ∀ w, (s.worker w).sleeps = false
  staying : s.shutdown = false → ∀ w, (s.worker w).leaves = false

variable {s t u : Pool n C M} {c : C} {w : Fin n} {qMsg newMsg : M} {rest : List M}

namespace Normal

theorem move (h : Normal s) {pc : WorkerPc M}
    (worker : t.worker = Function.update s.worker w pc) (shutdown : t.shutdown = s.shutdown)
    (awake : pc.sleeps = false) (staying : s.shutdown = false → pc.leaves = false) : Normal t where
  awake := by
    rw [worker]
    exact forall_update (Q := fun pc : WorkerPc M => pc.sleeps = false) h.awake awake
  staying := by
    intro up
    rw [shutdown] at up
    rw [worker]
    exact forall_update (Q := fun pc : WorkerPc M => pc.leaves = false) (h.staying up) (staying up)

theorem quiet (h : Normal s) (worker : t.worker = s.worker) (shutdown : t.shutdown = s.shutdown) :
    Normal t := by
  constructor
  · rw [worker]
    exact h.awake
  · rw [shutdown, worker]
    exact h.staying

theorem not_blocked (h : Normal s) (hw : s.worker w = .blocked) : False := by
  have awake := h.awake w
  rw [hw] at awake
  cases awake

theorem broadcast (h : Normal s) : s.broadcast = s := by
  have same : (fun w => (s.worker w).wake) = s.worker := by
    funext w
    cases hw : s.worker w with
    | blocked => exact (h.not_blocked hw).elim
    | _ => rfl
  rw [Pool.broadcast, same]

variable [DecidableEq C]

theorem step {a : Act n C M} (h : Normal s) (boot : Booting s) (hs : Step false s a t) :
    Normal t := by
  cases hs with
  | clear hs =>
    constructor
    · exact h.awake
    · intro _ w
      rw [boot.unborn (by rw [hs]; exact Nat.zero_le _)]
      rfl
  | create => exact h.move rfl rfl rfl fun _ => rfl
  | signal _ hw => exact (h.not_blocked hw).elim
  | shut => exact ⟨h.awake, nofun⟩
  | broadcast => rw [h.broadcast]; exact h.quiet rfl rfl
  | next => rw [h.broadcast]; exact h.quiet rfl rfl
  | acquire => exact h.move rfl rfl rfl fun _ => rfl
  | empty _ _ dbg => cases dbg
  | @wait w hw =>
    have awake := h.awake w
    rw [hw] at awake
    cases awake
  | proceed => exact h.move rfl rfl rfl fun _ => rfl
  | check =>
    refine h.move rfl rfl ?_ ?_
    · split <;> rfl
    · intro up
      rw [up]
      rfl
  | @unlockExit w hw =>
    refine h.move rfl rfl rfl ?_
    intro up
    have staying := h.staying up w
    rw [hw] at staying
    cases staying
  | take => exact h.move rfl rfl rfl fun _ => rfl
  | relock => exact h.move rfl rfl rfl fun _ => rfl
  | fault => exact h.move rfl rfl rfl fun _ => rfl
  | pop => exact h.move rfl rfl rfl fun _ => rfl
  | unlock => exact h.move rfl rfl rfl fun _ => rfl
  | process => exact h.move rfl rfl rfl fun _ => rfl
  | delete => exact h.move rfl rfl rfl fun _ => rfl
  | spurious hw => exact (h.not_blocked hw).elim
  | _ => exact h.quiet rfl rfl

end Normal

variable [DecidableEq C]

theorem Keeps.client (start : t.start = s.start) (shutdown : t.shutdown = s.shutdown)
    {pc : ClientPc M} (client : t.client = Function.update s.client c pc)
    (out : (s.client c).waits = false) : Keeps s t where
  start := start
  shutdown := shutdown
  waiting := by
    intro d newMsg hd
    have other : d ≠ c := by
      rintro rfl
      rw [hd] at out
      cases out
    rw [client, Function.update_of_ne other, hd]

theorem Step.pass (hw : s.worker w = .check) (up : s.shutdown = false) :
    Step false s (.work w) (s.setWorker w .guard) := by
  have hs : Step false s (.work w) _ := .check hw
  simpa only [up, Bool.false_eq_true, if_false] using hs

variable [DecidableEq M]

abbrev GoesOn (s t : Pool n C M) : Prop :=
  ReachIf (step false) (fun _ a => a.isCall = false) s t

theorem GoesOn.head {a : Act n C M} (h : Step false s a t) (call : a.isCall = false)
    (k : GoesOn t u) : GoesOn s u := by
  have first : GoesOn s t := .next .start call h.eq
  exact first.trans k

theorem GoesOn.client (h : Step false s (.client c none) t) (k : GoesOn t u) : GoesOn s u :=
  .head h rfl k

theorem GoesOn.work (h : Step false s (.work w) t) (k : GoesOn t u) : GoesOn s u :=
  .head h rfl k

def Drains (s : Pool n C M) : Prop := ∃ t, GoesOn s t ∧ t.queueLock = none ∧ Keeps s t

theorem Drains.head {a : Act n C M} (h : Step false s a t) (call : a.isCall = false)
    (keeps : Keeps s t) (k : Drains t) : Drains s := by
  obtain ⟨u, hu, free, kept⟩ := k
  exact ⟨u, .head h call hu, free, keeps.trans kept⟩

theorem Drains.last {a : Act n C M} (h : Step false s a t) (call : a.isCall = false)
    (keeps : Keeps s t) (free : t.queueLock = none) : Drains s :=
  .head h call keeps ⟨t, .start, free, .refl t⟩

namespace Drains

theorem clientUnlock (hc : s.client c = .unlock) : Drains s := by
  have hs : Step false s (.client c none) _ := .unlockAdd hc
  exact .last hs rfl (.client rfl rfl rfl (by rw [hc]; rfl)) rfl

theorem store {cur : Int} (hc : s.client c = .store cur) : Drains s := by
  have hs : Step false s (.client c none) _ := .store hc
  exact .head hs rfl (.client rfl rfl rfl (by rw [hc]; rfl))
    (clientUnlock (Function.update_self ..))

theorem load (hc : s.client c = .load) : Drains s := by
  have hs : Step false s (.client c none) _ := .load hc
  exact .head hs rfl (.client rfl rfl rfl (by rw [hc]; rfl)) (store (Function.update_self ..))

theorem push (hc : s.client c = .push newMsg) : Drains s := by
  have hs : Step false s (.client c none) _ := .push hc
  exact .head hs rfl (.client rfl rfl rfl (by rw [hc]; rfl)) (load (Function.update_self ..))

theorem unlock (hw : s.worker w = .unlock qMsg) : Drains s :=
  .last (.unlock hw) rfl ⟨rfl, rfl, fun _ _ h => h⟩ rfl

theorem front (hw : s.worker w = .front) (hq : s.queueB ≠ []) : Drains s := by
  obtain ⟨qMsg, rest, hq⟩ := List.exists_cons_of_ne_nil hq
  exact .head (.pop hw hq) rfl ⟨rfl, rfl, fun _ _ h => h⟩ (unlock (Function.update_self ..))

theorem guard (hw : s.worker w = .guard) (pos : 0 < s.curQueueSize) (hq : s.queueB ≠ []) :
    Drains s :=
  .head (.take hw pos) rfl ⟨rfl, rfl, fun _ _ h => h⟩ (front (Function.update_self ..) hq)

theorem check (hw : s.worker w = .check) (up : s.shutdown = false) (pos : 0 < s.curQueueSize)
    (hq : s.queueB ≠ []) : Drains s :=
  .head (.pass hw up) rfl ⟨rfl, rfl, fun _ _ h => h⟩ (guard (Function.update_self ..) pos hq)

theorem test (hw : s.worker w = .test) (up : s.shutdown = false) (pos : 0 < s.curQueueSize)
    (hq : s.queueB ≠ []) : Drains s := by
  have go : ¬ (s.curQueueSize = 0 ∧ s.shutdown = false) := by omega
  exact .head (.proceed hw go) rfl ⟨rfl, rfl, fun _ _ h => h⟩
    (check (Function.update_self ..) up pos hq)

end Drains

theorem reach_normal (h : Reach (step false) Pool.init s) : Normal s := by
  refine h.invariant (I := Normal) ⟨fun _ => rfl, fun _ _ => rfl⟩ ?_
  exact fun _ _ _ hr ih _ hs => ih.step (reach_inOrder hr).booting (step_cases hs)

/-- Whoever holds the lock can give it back, unless it is a worker that finds the counter zero. -/
theorem drains (order : InOrder s) (normal : Normal s) (up : s.shutdown = false)
    (go : ¬ ∃ w, s.worker w = .test ∧ s.curQueueSize = 0) : Drains s := by
  have sound := order.sound
  have queued : 0 < s.curQueueSize → s.curQueueSize ≤ s.queueB.length → s.queueB ≠ [] := by
    rintro pos le empty
    rw [empty, List.length_nil] at le
    omega
  cases lock : s.queueLock with
  | none => exact ⟨s, .start, lock, .refl s⟩
  | some t =>
    have inside := (order.locked t).mpr lock
    cases t with
    | inl w =>
      change (s.worker w).inside = true at inside
      cases hw : s.worker w with
      | test =>
        rw [Core.Sound, order.locked.place_worker hw rfl] at sound
        have size : 0 ≤ s.curQueueSize ∧ s.curQueueSize ≤ s.queueB.length := sound
        have pos : 0 < s.curQueueSize := lt_of_le_of_ne size.1 fun e => go ⟨w, hw, e.symm⟩
        exact .test hw up pos (queued pos size.2)
      | check =>
        rw [Core.Sound, order.locked.place_worker hw rfl] at sound
        have size : 0 ≤ s.curQueueSize ∧ s.curQueueSize ≤ s.queueB.length ∧
          (s.curQueueSize ≠ 0 ∨ s.shutdown = true) := sound
        have pos : 0 < s.curQueueSize := by
          simp only [up, Bool.false_eq_true, or_false] at size
          omega
        exact .check hw up pos (queued pos size.2.1)
      | guard =>
        rw [Core.Sound, order.locked.place_worker hw rfl] at sound
        exact .guard hw sound.2.1 (queued sound.2.1 sound.2.2)
      | front => exact .front hw (order.front hw)
      | unlock qMsg => exact .unlock hw
      | wait =>
        have awake := normal.awake w
        rw [hw] at awake
        cases awake
      | unlockExit =>
        have staying := normal.staying up w
        rw [hw] at staying
        cases staying
      | relock =>
        rw [Core.Sound, order.locked.place_worker hw rfl] at sound
        exact sound.2.elim
      | fault => exact (order.no_fault w hw).elim
      | _ => rw [hw] at inside; cases inside
    | inr c =>
      change (s.client c).inside = true at inside
      cases hc : s.client c with
      | push newMsg => exact .push hc
      | load => exact .load hc
      | store cur => exact .store hc
      | unlock => exact .clientUnlock hc
      | _ => rw [hc] at inside; cases inside

theorem goesOn_added (free : s.queueLock = none) (hc : s.client c = .lock newMsg) :
    GoesOn s (s.added c newMsg) := by
  have run : GoesOn s _ :=
    .client (.acquireAdd hc free) <|
    .client (.push (Function.update_self ..)) <|
    .client (.load (Function.update_self ..)) <|
    .client (.store (Function.update_self ..)) <|
    .client (.unlockAdd (Function.update_self ..)) .start
  simpa only [Pool.added, Pool.setClient, Function.update_idem, free] using run

theorem goesOn_served (free : s.queueLock = none) (hw : s.worker w = .lock)
    (up : s.shutdown = false) (pos : 0 < s.curQueueSize) (hq : s.queueB = qMsg :: rest) :
    GoesOn s (s.served w qMsg rest) := by
  have go : ¬ (s.curQueueSize = 0 ∧ s.shutdown = false) := by omega
  have run : GoesOn s _ :=
    .work (.acquire (.inl hw) free) <|
    .work (.proceed (Function.update_self ..) go) <|
    .work (.pass (Function.update_self ..) up) <|
    .work (.take (Function.update_self ..) pos) <|
    .work (.pop (Function.update_self ..) hq) <|
    .work (.unlock (Function.update_self ..)) <|
    .work (.process (Function.update_self ..)) <|
    .work (.delete (Function.update_self ..)) .start
  have back : Function.update s.worker w .lock = s.worker := by
    rw [← hw, Function.update_eq_self]
  simpa only [Pool.served, Pool.setWorker, Function.update_idem, back, free] using run

theorem exists_deleted (hw : s.worker w = .delete qMsg) :
    ∃ t, GoesOn s t ∧ t.worker w = .lock ∧ t.queueLock = s.queueLock ∧ t.shutdown = s.shutdown ∧
      t.queueB = s.queueB ∧ t.curQueueSize = s.curQueueSize := by
  have hs : Step false s (.work w) _ := .delete hw
  exact ⟨_, .work hs .start, Function.update_self .., rfl, rfl, rfl, rfl⟩

theorem exists_ready (order : InOrder s) (normal : Normal s) (started : s.start = .returned)
    (up : s.shutdown = false) (free : s.queueLock = none) (w : Fin n) :
    ∃ t, GoesOn s t ∧ t.worker w = .lock ∧ t.queueLock = none ∧ t.shutdown = false ∧
      t.queueB = s.queueB ∧ t.curQueueSize = s.curQueueSize := by
  have outside : (s.worker w).inside = false := by
    cases inside : (s.worker w).inside with
    | false => rfl
    | true => cases free.symm.trans ((order.locked (.inl w)).mp inside)
  cases hw : s.worker w with
  | unborn =>
    have born := order.booting w
    rw [hw, started] at born
    have late : ¬ n ≤ w := by omega
    rw [StartPc.created, decide_eq_false late] at born
    cases born
  | lock => exact ⟨s, .start, hw, free, up, rfl, rfl⟩
  | blocked => exact (normal.not_blocked hw).elim
  | woken =>
    have awake := normal.awake w
    rw [hw] at awake
    cases awake
  | process qMsg =>
    obtain ⟨u, hu, ready, lock, shutdown, queue, size⟩ := exists_deleted
      (s := { s with executed := s.executed ++ [(w, qMsg)] }.setWorker w (.delete qMsg))
      (Function.update_self ..)
    exact ⟨u, .work (.process hw) hu, ready, lock.trans free, shutdown.trans up, queue, size⟩
  | delete qMsg =>
    obtain ⟨u, hu, ready, lock, shutdown, queue, size⟩ := exists_deleted hw
    exact ⟨u, hu, ready, lock.trans free, shutdown.trans up, queue, size⟩
  | exited =>
    have staying := normal.staying up w
    rw [hw] at staying
    cases staying
  | _ => rw [hw] at outside; cases outside

theorem exists_executed (pre : List M) {post : List M} (free : s.queueLock = none)
    (hw : s.worker w = .lock) (up : s.shutdown = false) (hq : s.queueB = pre ++ qMsg :: post)
    (enough : (pre.length : Int) < s.curQueueSize) :
    ∃ t, GoesOn s t ∧ qMsg ∈ t.executed.map Prod.snd := by
  have pos : 0 < s.curQueueSize := by omega
  induction pre generalizing s with
  | nil => exact ⟨_, goesOn_served free hw up pos hq, by simp [Pool.served]⟩
  | cons first pre ih =>
    have first := goesOn_served free hw up pos hq
    rw [List.length_cons] at enough
    obtain ⟨t, ht, done⟩ := ih (s := s.served w _ (pre ++ qMsg :: post)) free hw up rfl
      (by simp only [Pool.served]; omega) (by simp only [Pool.served]; omega)
    exact ⟨t, first.trans ht, done⟩

omit [DecidableEq C] [DecidableEq M] in
theorem lock_of_waits (h : (s.client c).waits = true) : ∃ newMsg, s.client c = .lock newMsg := by
  cases hc : s.client c with
  | lock newMsg => exact ⟨newMsg, rfl⟩
  | _ => rw [hc] at h; cases h

theorem exists_all_added [Fintype C] (k : Nat) (free : s.queueLock = none)
    (waiting : count ClientPc.waits s.client = k) :
    ∃ t xs, GoesOn s t ∧ t.queueLock = none ∧ t.start = s.start ∧ t.shutdown = s.shutdown ∧
      t.queueB = s.queueB ++ xs ∧ xs.length = k ∧ t.curQueueSize = s.curQueueSize + k := by
  induction k generalizing s with
  | zero => exact ⟨s, [], .start, free, rfl, rfl, by simp, rfl, by simp⟩
  | succ k ih =>
    have some : 0 < count ClientPc.waits s.client := by omega
    obtain ⟨c, hc⟩ := count_pos.mp some
    obtain ⟨newMsg, hc⟩ := lock_of_waits hc
    have fewer := count_update ClientPc.waits s.client c .signal
    rw [hc, waiting] at fewer
    obtain ⟨t, xs, ht, free, start, shutdown, queue, length, size⟩ :=
      ih (s := s.added c newMsg) free
        (by simpa [ClientPc.waits, Pool.added, Pool.setClient] using fewer)
    refine ⟨t, newMsg :: xs, (goesOn_added ‹_› hc).trans ht, free, start, shutdown, ?_, ?_, ?_⟩
    · rw [queue]
      simp [Pool.added, Pool.setClient]
    · rw [List.length_cons, length]
    · rw [size]
      simp only [Pool.added, Pool.setClient]
      omega

end Leano.PthreadPool
