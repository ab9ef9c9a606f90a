import Leano.Lib.Halting
import Leano.PthreadPool.WindDown

universe u v

namespace Leano.PthreadPool

open Leano.Lib

variable {n : Nat} {C : Type v} {M : Type u}

def Act.settles : Act n C M → Bool
  | .client _ _ => true
  | .work _ => true
  | .start => false
  | .add _ _ => false
  | .destory _ => false
  | .spurious _ => false

structure Up (s : Pool n C M) : Prop where
  started : s.start = .returned
  up : s.shutdown = false
  nobody : ∀ c, (s.client c).destroys = false

def StaysOn (s : Pool n C M) : Prop := s.shutdown = false → ∀ w, (s.worker w).leaves = false

def WaitsEmpty (s : Pool n C M) : Prop := ∀ w, s.worker w = .wait → s.curQueueSize = 0

/-- If all workers are blocked while something is to do, a signal is still to come. -/
def Noticed (s : Pool n C M) : Prop :=
  0 < s.curQueueSize → (∀ w, s.worker w = .blocked) →
    ∃ c, s.client c = .unlock ∨ s.client c = .signal

structure Underway (s : Pool n C M) : Prop where
  once : s.made.Nodup
  kept : ∀ m ∈ s.made, m ∈ s.submitted ∨ ∃ c, (s.client c).pending = some m

variable {debug : Bool} {s t : Pool n C M} {a : Act n C M} {c : C} {w : Fin n}

section

variable [DecidableEq C]

theorem StaysOn.step (h : StaysOn s) (boot : Booting s) (hs : Step debug s a t) : StaysOn t := by
  intro up w
  by_cases clears : s.start = .clear ∧ t.worker = s.worker
  · rw [clears.2, boot.unborn (by rw [clears.1]; exact Nat.zero_le _)]
    rfl
  have before : s.shutdown = false := by
    cases hs with
    | clear hs => exact absurd ⟨hs, rfl⟩ clears
    | shut => cases up
    | _ => exact up
  have stays := h before w
  cases moves_of_step boot hs w with
  | same same => rwa [same]
  | born _ lock => rw [lock]; rfl
  | woken _ woken => rw [woken]; rfl
  | own ha =>
    subst ha
    have moved : ∀ {pc}, Function.update s.worker w pc w = pc := Function.update_self _ _ _
    cases hs with
    | spin => exact stays
    | check =>
      simp only [Pool.setWorker, moved, before, Bool.false_eq_true, if_false]
      rfl
    | unlockExit hw => rw [hw] at stays; cases stays
    | _ => exact (congrArg WorkerPc.leaves moved).trans rfl

theorem size_of_step (hs : Step debug s a t) : t.curQueueSize = s.curQueueSize ∨
    t.curQueueSize = 0 ∨ (∃ c cur, s.client c = .store cur) ∨ ∃ w, s.worker w = .guard := by
  cases hs with
  | reset => exact .inr (.inl rfl)
  | store hc => exact .inr (.inr (.inl ⟨_, _, hc⟩))
  | take hw => exact .inr (.inr (.inr ⟨_, hw⟩))
  | _ => exact .inl rfl

theorem WaitsEmpty.step (h : WaitsEmpty s) (order : InOrder s) (hs : Step debug s a t) :
    WaitsEmpty t := by
  intro w hw
  have kept : s.worker w = .wait → t.curQueueSize = 0 := by
    intro waits
    have mine := order.locked.worker waits rfl
    rcases size_of_step hs with same | zero | ⟨c, cur, hc⟩ | ⟨u, hu⟩
    · exact same.trans (h w waits)
    · exact zero
    · cases mine.symm.trans (order.locked.client hc rfl)
    · cases mine.symm.trans (order.locked.worker hu rfl)
      cases waits.symm.trans hu
  cases moves_of_step order.booting hs w with
  | same same => exact kept (same.symm.trans hw)
  | born _ lock => cases hw.symm.trans lock
  | woken _ woken => cases hw.symm.trans woken
  | own ha =>
    subst ha
    have moved : ∀ {pc}, Function.update s.worker w pc w = pc := Function.update_self _ _ _
    cases hs with
    | spin => exact kept hw
    | empty _ empty => exact empty.1
    | check =>
      have hw := moved.symm.trans hw
      split at hw <;> cases hw
    | _ => cases moved.symm.trans hw

namespace Noticed

theorem client (h : Noticed s) {pc : ClientPc M}
    (client : t.client = Function.update s.client c pc) (worker : t.worker = s.worker)
    (size : t.curQueueSize = s.curQueueSize)
    (other : s.client c = .unlock ∨ s.client c = .signal → pc = .unlock ∨ pc = .signal) :
    Noticed t := by
  intro pos blocked
  rw [worker] at blocked
  obtain ⟨d, hd⟩ := h (size ▸ pos) blocked
  refine ⟨d, ?_⟩
  rw [client]
  by_cases same : d = c
  · subst same
    rw [Function.update_self]
    exact other hd
  · rwa [Function.update_of_ne same]

omit [DecidableEq C] in
theorem awake (hw : t.worker w ≠ .blocked) : Noticed t := fun _ blocked => absurd (blocked w) hw

theorem step (h : Noticed s) (workers : 0 < n) (waits : WaitsEmpty s) (hs : Step debug s a t) :
    Noticed t := by
  have moved : ∀ {w : Fin n} {pc : WorkerPc M}, pc ≠ .blocked →
      Function.update s.worker w pc w ≠ .blocked := by
    intro w pc ne
    rwa [Function.update_self]
  have woken : (s.worker ⟨0, workers⟩).wake ≠ .blocked := by
    cases s.worker ⟨0, workers⟩ <;> exact fun same => by cases same
  have quiet : ∀ {c : C} {pc pc' : ClientPc M}, s.client c = pc → pc ≠ .unlock → pc ≠ .signal →
      s.client c = .unlock ∨ s.client c = .signal → pc' = .unlock ∨ pc' = .signal := by
    rintro c pc pc' hc unlock signal (same | same)
    · exact absurd (hc.symm.trans same) unlock
    · exact absurd (hc.symm.trans same) signal
  cases hs with
  | reset => exact fun pos => absurd pos (lt_irrefl 0)
  | call | clear | started => exact h
  | create => exact awake (moved (by simp))
  | add hc => exact h.client rfl rfl rfl (quiet hc (by simp) (by simp))
  | destory hc => exact h.client rfl rfl rfl (quiet hc (by simp) (by simp))
  | acquireAdd hc => exact h.client rfl rfl rfl (quiet hc (by simp) (by simp))
  | push hc => exact h.client rfl rfl rfl (quiet hc (by simp) (by simp))
  | load hc => exact h.client rfl rfl rfl (quiet hc (by simp) (by simp))
  | @store c => exact fun _ _ => ⟨c, .inl (Function.update_self _ _ _)⟩
  | unlockAdd => exact h.client rfl rfl rfl fun _ => .inr rfl
  | signal => exact awake (moved (by simp))
  | signalNobody _ nobody =>
    refine awake (w := ⟨0, workers⟩) fun blocked => ?_
    have out := nobody ⟨0, workers⟩
    rw [show s.worker ⟨0, workers⟩ = .blocked from blocked] at out
    cases out
  | testShutdown hc => exact h.client rfl rfl rfl (quiet hc (by simp) (by simp))
  | shut hc => exact h.client rfl rfl rfl (quiet hc (by simp) (by simp))
  | broadcast => exact awake woken
  | next => exact awake woken
  | joined hc => exact h.client rfl rfl rfl (quiet hc (by simp) (by simp))
  | join _ hc => exact h.client rfl rfl rfl (quiet hc (by simp) (by simp))
  | spin => exact h
  | wait hw => exact fun pos => absurd (waits _ hw) pos.ne'
  | check => exact awake (moved (by split <;> simp))
  | _ => exact awake (moved (by simp))

end Noticed

theorem Underway.client (h : Underway s) {pc : ClientPc M}
    (client : t.client = Function.update s.client c pc) (submitted : s.submitted ⊆ t.submitted)
    (mine : ∀ m, (s.client c).pending = some m → m ∈ t.submitted ∨ pc.pending = some m) :
    ∀ m ∈ s.made, m ∈ t.submitted ∨ ∃ d, (t.client d).pending = some m := by
  intro m hm
  rw [client]
  rcases h.kept m hm with done | ⟨d, hd⟩
  · exact .inl (submitted done)
  · by_cases same : d = c
    · subst same
      exact (mine m hd).imp_right fun kept => ⟨d, by rwa [Function.update_self]⟩
    · exact .inr ⟨d, by rwa [Function.update_of_ne same]⟩

theorem Underway.step (h : Underway s) (hs : Step debug s a t) : Underway t := by
  cases offers_of_step hs with
  | @add c newMsg call fresh eq =>
    subst call
    cases hs with
    | add hc =>
      have idle : (s.client c).pending = none := by rw [hc]; rfl
      refine ⟨List.nodup_append.mpr ⟨h.once, List.nodup_singleton _, ?_⟩, fun m hm => ?_⟩
      · intro m old m' new
        rintro rfl
        exact fresh (List.mem_singleton.mp new ▸ old)
      rcases List.mem_append.mp hm with old | new
      · refine h.client (t := s.setClient c (.lock newMsg)) rfl (List.Subset.refl _) ?_ m old
        exact fun m hm => by cases idle.symm.trans hm
      · obtain rfl := List.mem_singleton.mp new
        exact .inr ⟨c, by simp [Pool.setClient, ClientPc.pending]⟩
  | acquire pc _ made submitted client =>
    refine ⟨made ▸ h.once, fun m hm => ?_⟩
    refine h.client client (submitted ▸ List.Subset.refl _) ?_ m (made ▸ hm)
    rw [pc]
    exact fun m hm => .inr hm
  | push pc made submitted client =>
    refine ⟨made ▸ h.once, fun m hm => ?_⟩
    refine h.client client ?_ ?_ m (made ▸ hm)
    · rw [submitted]
      exact List.subset_append_left _ _
    · rw [pc, submitted]
      rintro m ⟨⟩
      exact .inl (List.mem_append_right _ (List.mem_singleton_self _))
  | other made submitted _ pending =>
    refine ⟨made ▸ h.once, fun m hm => ?_⟩
    simpa only [submitted, pending] using h.kept m (made ▸ hm)

end

section

variable [DecidableEq C] [DecidableEq M]

structure Steady (s : Pool n C M) : Prop where
  order : InOrder s
  staysOn : StaysOn s
  waitsEmpty : WaitsEmpty s
  underway : Underway s
  noticed : 0 < n → Noticed s

theorem reach_steady (h : Reach (step debug) Pool.init s) : Steady s := by
  refine h.invariant (I := Steady) ⟨inOrder_init, ?_, ?_, ?_, ?_⟩ ?_
  · exact fun _ _ => rfl
  · exact fun _ hw => by cases hw
  · exact ⟨.nil, fun _ hm => absurd hm List.not_mem_nil⟩
  · exact fun _ pos => absurd pos (lt_irrefl 0)
  · intro s a t _ ih _ hs
    have hs := step_cases hs
    exact ⟨ih.order.step hs, ih.staysOn.step ih.order.booting hs, ih.waitsEmpty.step ih.order hs,
      ih.underway.step hs, fun workers => (ih.noticed workers).step workers ih.waitsEmpty hs⟩

abbrev settle (debug : Bool) : Pool n C M → Act n C M → Option (Pool n C M) :=
  only Act.settles (step debug)

omit [DecidableEq M] in
theorem Up.of_settles (h : Up s) (ha : a.settles = true) (hs : Step debug s a t) : Up t := by
  have moved : ∀ {c : C} {pc : ClientPc M}, pc.destroys = false →
      ∀ d, (Function.update s.client c pc d).destroys = false :=
    fun out => forall_update (Q := fun pc : ClientPc M => pc.destroys = false) h.nobody out
  have out : ∀ {c : C} {pc : ClientPc M}, s.client c = pc → pc.destroys = true → Up t := by
    intro c pc hc destroys
    cases destroys.symm.trans (hc ▸ h.nobody c)
  cases hs with
  | call | reset | clear | create | started | add | destory | spurious => cases ha
  | acquireAdd | push | load | store | unlockAdd => exact ⟨h.started, h.up, moved rfl⟩
  | signal | signalNobody => exact ⟨h.started, h.up, moved rfl⟩
  | testShutdown hc => exact out hc rfl
  | shut hc => exact out hc rfl
  | broadcast hc => exact out hc rfl
  | next hc => exact out hc rfl
  | joined hc => exact out hc rfl
  | join _ hc => exact out hc rfl
  | _ => exact ⟨h.started, h.up, h.nobody⟩

theorem not_stuck (stuck : Stuck (settle debug) s) (ha : a.settles = true)
    (hs : Step debug s a t) : False := by
  cases (stuck.of_only ha).symm.trans hs.eq

theorem Steady.free (steady : Steady s) (stuck : Stuck (settle debug) s) : s.queueLock = none := by
  have work : ∀ {w : Fin n} {t}, Step debug s (.work w) t → False := not_stuck stuck rfl
  have client : ∀ {c : C} {t}, Step debug s (.client c none) t → False := not_stuck stuck rfl
  cases lock : s.queueLock with
  | none => rfl
  | some holder =>
    have inside := (steady.order.locked holder).mpr lock
    cases holder with
    | inl w =>
      have inside : (s.worker w).inside = true := inside
      have sound := steady.order.sound
      cases hw : s.worker w with
      | test =>
        by_cases empty : s.curQueueSize = 0 ∧ s.shutdown = false
        · cases debug with
          | true => exact (work (.empty hw empty rfl)).elim
          | false => exact (work (.spin hw empty rfl)).elim
        · exact (work (.proceed hw empty)).elim
      | wait => exact (work (.wait hw)).elim
      | check => exact (work (.check hw)).elim
      | unlockExit => exact (work (.unlockExit hw)).elim
      | guard =>
        by_cases pos : 0 < s.curQueueSize
        · exact (work (.take hw pos)).elim
        · exact (work (.relock hw pos)).elim
      | front =>
        cases hq : s.queueB with
        | nil => exact (work (.fault hw hq)).elim
        | cons qMsg rest => exact (work (.pop hw hq)).elim
      | unlock qMsg => exact (work (.unlock hw)).elim
      | relock =>
        rw [Core.Sound, steady.order.locked.place_worker hw rfl] at sound
        exact sound.2.elim
      | fault => exact absurd hw (steady.order.no_fault w)
      | _ => rw [hw] at inside; cases inside
    | inr c =>
      have inside : (s.client c).inside = true := inside
      cases hc : s.client c with
      | push newMsg => exact (client (.push hc)).elim
      | load => exact (client (.load hc)).elim
      | store cur => exact (client (.store hc)).elim
      | unlock => exact (client (.unlockAdd hc)).elim
      | _ => rw [hc] at inside; cases inside

theorem Steady.blocked_or_exited (steady : Steady s) (stuck : Stuck (settle debug) s)
    (started : s.start = .returned) (w : Fin n) :
    s.worker w = .blocked ∨ s.worker w = .exited := by
  have free := steady.free stuck
  have work : ∀ {t}, Step debug s (.work w) t → False := not_stuck stuck rfl
  have born := steady.order.booting w
  have out : ∀ {pc}, s.worker w = pc → pc.inside = true → False := by
    intro pc hw inside
    cases free.symm.trans (steady.order.locked.worker hw inside)
  cases hw : s.worker w with
  | blocked => exact .inl rfl
  | exited => exact .inr rfl
  | unborn =>
    rw [hw, started] at born
    exact absurd (of_decide_eq_true born.symm) (not_le.mpr w.isLt)
  | lock => exact (work (.acquire (.inl hw) free)).elim
  | woken => exact (work (.acquire (.inr hw) free)).elim
  | process qMsg => exact (work (.process hw)).elim
  | delete qMsg => exact (work (.delete hw)).elim
  | _ => exact (out hw rfl).elim

theorem Steady.added (steady : Steady s) (stuck : Stuck (settle debug) s) (c : C) :
    s.client c = .idle ∨ (s.client c).destroys = true := by
  have free := steady.free stuck
  have within : ∀ {pc}, s.client c = pc → pc.inside = true → False := by
    intro pc hc inside
    cases free.symm.trans (steady.order.locked.client hc inside)
  cases hc : s.client c with
  | idle => exact .inl rfl
  | lock newMsg => exact (not_stuck (a := .client c none) stuck rfl (.acquireAdd hc free)).elim
  | signal =>
    by_cases nobody : ∀ w, (s.worker w).isBlocked = false
    · exact (not_stuck stuck rfl (.signalNobody hc nobody)).elim
    · obtain ⟨w, hw⟩ := not_forall.mp nobody
      cases blocked : s.worker w with
      | blocked => exact (not_stuck stuck rfl (.signal hc blocked)).elim
      | _ => rw [blocked] at hw; exact absurd rfl hw
  | push newMsg | load | store cur | unlock => exact (within hc rfl).elim
  | _ => exact .inr rfl

theorem Up.blocked (h : Up s) (steady : Steady s) (stuck : Stuck (settle debug) s) (w : Fin n) :
    s.worker w = .blocked := by
  refine (steady.blocked_or_exited stuck h.started w).resolve_right fun exited => ?_
  have stays := steady.staysOn h.up w
  rw [exited] at stays
  cases stays

theorem Up.idle (h : Up s) (steady : Steady s) (stuck : Stuck (settle debug) s) (c : C) :
    s.client c = .idle := by
  refine (steady.added stuck c).resolve_right fun destroys => ?_
  cases destroys.symm.trans (h.nobody c)

def WorkerPc.toDo : WorkerPc M → Nat
  | .front => 1
  | .wait => 1
  | .guard => 2
  | .check => 3
  | .test => 4
  | .lock => 5
  | .woken => 5
  | .delete _ => 6
  | .process _ => 7
  | .unlock _ => 8
  | _ => 0

def ClientPc.toDo : ClientPc M → Nat
  | .lock _ => 19
  | .push _ => 18
  | .load => 9
  | .store _ => 8
  | .unlock => 7
  | .signal => 6
  | _ => 0

variable [Fintype C]

def Pool.toDo (s : Pool n C M) : Nat :=
  8 * s.queueB.length + total WorkerPc.toDo s.worker + total ClientPc.toDo s.client

omit [DecidableEq C] [DecidableEq M] in
theorem toDo_worker {old pc : WorkerPc M} (hw : s.worker w = old)
    (worker : t.worker = Function.update s.worker w pc) (client : t.client = s.client)
    (less : 8 * t.queueB.length + pc.toDo < 8 * s.queueB.length + old.toDo) :
    t.toDo < s.toDo := by
  have moved := total_update WorkerPc.toDo s.worker w pc
  rw [hw, ← worker] at moved
  simp only [Pool.toDo, client]
  omega

omit [DecidableEq M] in
theorem toDo_client {old pc : ClientPc M} (hc : s.client c = old)
    (client : t.client = Function.update s.client c pc)
    (less : 8 * t.queueB.length + total WorkerPc.toDo t.worker + pc.toDo <
      8 * s.queueB.length + total WorkerPc.toDo s.worker + old.toDo) : t.toDo < s.toDo := by
  have moved := total_update ClientPc.toDo s.client c pc
  rw [hc, ← client] at moved
  simp only [Pool.toDo]
  omega

omit [DecidableEq M] in
theorem Up.lowers (h : Up s) (steady : Steady s) (ha : a.settles = true) (hs : Step true s a t) :
    t.toDo < s.toDo := by
  have less : ∀ {k i j : Nat}, i < j → k + i < k + j := fun lt => Nat.add_lt_add_left lt _
  have out : ∀ {c : C} {pc : ClientPc M}, s.client c = pc → pc.destroys = true →
      t.toDo < s.toDo := by
    intro c pc hc destroys
    cases destroys.symm.trans (hc ▸ h.nobody c)
  cases hs with
  | call | reset | clear | create | started | add | destory | spurious => cases ha
  | acquireAdd hc => exact toDo_client hc rfl (less (by simp [ClientPc.toDo]))
  | push hc =>
    refine toDo_client hc rfl ?_
    simp only [Pool.setClient, ClientPc.toDo, List.length_append, List.length_singleton]
    omega
  | load hc => exact toDo_client hc rfl (less (by simp [ClientPc.toDo]))
  | store hc => exact toDo_client hc rfl (less (by simp [ClientPc.toDo]))
  | unlockAdd hc => exact toDo_client hc rfl (less (by simp [ClientPc.toDo]))
  | @signal c w hc hw =>
    have woken := total_update WorkerPc.toDo s.worker w .woken
    rw [hw] at woken
    refine toDo_client hc rfl ?_
    simp only [Pool.setClient, Pool.setWorker, ClientPc.toDo, WorkerPc.toDo] at woken ⊢
    omega
  | signalNobody hc => exact toDo_client hc rfl (less (by simp [ClientPc.toDo]))
  | testShutdown hc => exact out hc rfl
  | shut hc => exact out hc rfl
  | broadcast hc => exact out hc rfl
  | next hc => exact out hc rfl
  | joined hc => exact out hc rfl
  | join _ hc => exact out hc rfl
  | acquire hw =>
    rcases hw with hw | hw
    · exact toDo_worker hw rfl rfl (less (by simp [WorkerPc.toDo]))
    · exact toDo_worker hw rfl rfl (less (by simp [WorkerPc.toDo]))
  | empty hw => exact toDo_worker hw rfl rfl (less (by simp [WorkerPc.toDo]))
  | wait hw => exact toDo_worker hw rfl rfl (less (by simp [WorkerPc.toDo]))
  | spin _ _ dbg => cases dbg
  | proceed hw => exact toDo_worker hw rfl rfl (less (by simp [WorkerPc.toDo]))
  | check hw =>
    rw [h.up]
    exact toDo_worker hw rfl rfl (less (by simp [WorkerPc.toDo]))
  | @unlockExit w hw =>
    have stays := steady.staysOn h.up w
    rw [hw] at stays
    cases stays
  | take hw => exact toDo_worker hw rfl rfl (less (by simp [WorkerPc.toDo]))
  | relock hw none =>
    have sound := steady.order.sound
    rw [Core.Sound, steady.order.locked.place_worker hw rfl] at sound
    exact absurd sound.2.1 none
  | fault hw empty => exact absurd empty (steady.order.front hw)
  | pop hw hq =>
    refine toDo_worker hw rfl rfl ?_
    rw [hq]
    simp only [Pool.setWorker, WorkerPc.toDo, List.length_cons]
    omega
  | unlock hw => exact toDo_worker hw rfl rfl (less (by simp [WorkerPc.toDo]))
  | process hw => exact toDo_worker hw rfl rfl (less (by simp [WorkerPc.toDo]))
  | delete hw => exact toDo_worker hw rfl rfl (less (by simp [WorkerPc.toDo]))

omit [Fintype C] in
theorem steady_of_settle (h : Up s ∧ Reach (step true) Pool.init s)
    (hs : settle true s a = some t) :
    (Up t ∧ Reach (step true) Pool.init t) ∧ t.made = s.made := by
  obtain ⟨ha, hs⟩ := only_eq_some.mp hs
  refine ⟨⟨h.1.of_settles ha (step_cases hs), .next h.2 trivial hs⟩, ?_⟩
  cases offers_of_step (step_cases hs) with
  | add call => subst call; cases ha
  | acquire _ _ made => exact made
  | push _ made => exact made
  | other made => exact made

omit [Fintype C] in
theorem Up.executed_eq (h : Up s) (reach : Reach (step true) Pool.init s)
    (stuck : Stuck (settle true) s) (workers : 0 < n) :
    (s.made : Multiset M) = tasks s.executed + s.queueB ∧
      tasks s.deleted = tasks s.executed ∧ (s.queueB.length : Int) = s.core.lag := by
  have steady := reach_steady reach
  have idle := h.idle steady stuck
  have blocked := h.blocked steady stuck
  have handled := reach_handled reach
  have offered := reach_offered reach
  obtain ⟨ch, hq⟩ := reach_represents reach
  have inHand : total WorkerPc.inHand s.worker = 0 :=
    total_eq_zero fun w => by rw [blocked w]; rfl
  have finishing : total WorkerPc.finishing s.worker = 0 :=
    total_eq_zero fun w => by rw [blocked w]; rfl
  have made : (s.made : Multiset M) = s.submitted := by
    refine (Multiset.Nodup.ext (Multiset.coe_nodup.mpr steady.underway.once)
      (Multiset.coe_nodup.mpr offered.once)).mpr fun m => ?_
    refine ⟨fun hm => ?_, offered.submitted_made m⟩
    rcases steady.underway.kept m hm with done | ⟨c, hc⟩
    · exact done
    · rw [idle c] at hc
      cases hc
  have size : s.curQueueSize = 0 := by
    refine le_antisymm (not_lt.mp fun pos => ?_) (steady.order.size_le (steady.free stuck)).1
    obtain ⟨c, hc⟩ := steady.noticed workers pos blocked
    rw [idle c] at hc
    simp at hc
  refine ⟨?_, ?_, ?_⟩
  · rw [made, hq.law, ← Multiset.coe_add]
    refine congrArg (· + _) (handled.dequeued.trans ?_)
    rw [inHand, zero_add]
  · rw [handled.executed, finishing, zero_add]
  · rw [lag_eq (steady.free stuck), size, sub_zero]

/-- Whenever the pool is up: if no client calls again it comes to rest, and then every task that was
made has been executed and deleted once, but for as many in the queue as the counter lacks. -/
theorem executes_all (h : Reach (step true) Pool.init s) (up : Up s) (workers : 0 < n) :
    Halts (settle true) s ∧ ∀ t, Reach (settle true) s t → Stuck (settle true) t →
      (∀ c, t.client c = .idle) ∧ (s.made : Multiset M) = tasks t.executed + t.queueB ∧
        tasks t.deleted = tasks t.executed ∧ (t.queueB.length : Int) = s.core.lag := by
  refine ⟨?_, fun t hr stuck => ?_⟩
  · refine halts_of_lowers (I := fun s => Up s ∧ Reach (step true) Pool.init s) Pool.toDo ?_ ⟨up, h⟩
    intro s a t hI hs
    obtain ⟨ha, moved⟩ := only_eq_some.mp hs
    exact ⟨(steady_of_settle hI hs).1, hI.1.lowers (reach_steady hI.2) ha (step_cases moved)⟩
  · obtain ⟨⟨later, reach⟩, made⟩ : (Up t ∧ Reach (step true) Pool.init t) ∧ t.made = s.made := by
      refine hr.invariant
        (I := fun t => (Up t ∧ Reach (step true) Pool.init t) ∧ t.made = s.made)
        ⟨⟨up, h⟩, rfl⟩ ?_
      intro u a v _ hI _ hs
      obtain ⟨kept, same⟩ := steady_of_settle hI.1 hs
      exact ⟨kept, same.trans hI.2⟩
    obtain ⟨executed, deleted, left⟩ := later.executed_eq reach stuck workers
    have lag := lag_of_reach (reach_inOrder h) (by rw [up.started]; rfl) (reach_of_only hr)
    rw [← made, ← lag]
    exact ⟨later.idle (reach_steady reach) stuck, executed, deleted, left⟩

end

theorem executes_all_of_two : ∃ s : Pool 1 (Fin 2) Nat,
    (s.made = [6, 7] ∧ s.submitted = [6] ∧ s.executed = [] ∧ s.core.lag = 1) ∧
      Halts (settle true) s ∧ ∀ t, Reach (settle true) s t → Stuck (settle true) t →
        (∀ c, t.client c = .idle) ∧ (s.made : Multiset Nat) = tasks t.executed + t.queueB ∧
          tasks t.deleted = tasks t.executed ∧ (t.queueB.length : Int) = s.core.lag := by
  obtain ⟨s, hs, hp⟩ := exists_reach (step true) Pool.init
    [.add 0 6, .client 0 none, .client 0 none, .client 0 none, .client 0 none, .client 0 none,
      .client 0 none, .start, .start, .start, .start, .start, .add 1 7]
    (fun s : Pool 1 (Fin 2) Nat => decide ((s.made = [6, 7] ∧ s.submitted = [6] ∧
      s.executed = [] ∧ s.core.lag = 1) ∧ s.start = .returned ∧ s.shutdown = false ∧
      ∀ c, (s.client c).destroys = false)) (by decide)
  obtain ⟨shown, started, up, nobody⟩ := of_decide_eq_true hp
  exact ⟨s, shown, executes_all hs ⟨started, up, nobody⟩ (by decide)⟩

end Leano.PthreadPool
