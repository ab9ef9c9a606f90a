import Leano.PthreadPool.Defs
import Leano.Lib.Total

universe u v

namespace Leano.PthreadPool

open Leano.Lib

variable {n : Nat} {C : Type v} {M : Type u}

def WorkerPc.parks : WorkerPc M → Bool
  | .wait => true
  | .blocked => true
  | _ => false

def ClientPc.destroys : ClientPc M → Bool
  | .destory => true
  | .shut => true
  | .broadcast => true
  | .next _ => true
  | .join _ => true
  | .joined => true
  | _ => false

def ClientPc.hasShut : ClientPc M → Bool
  | .broadcast => true
  | .next _ => true
  | .join _ => true
  | .joined => true
  | _ => false

/-- `pool_destory` is called when `start` has returned, and its broadcast before a join does not
come between the worker's test and the worker's `pthread_cond_wait`. -/
def JoinsAwake (s : Pool n C M) : Act n C M → Prop
  | .destory _ => s.start = .returned
  | .client c _ => ∀ w : Fin n, s.client c = .next w → s.worker w ≠ .wait
  | _ => True

instance [DecidableEq M] (s : Pool n C M) : (a : Act n C M) → Decidable (JoinsAwake s a)
  | .destory _ => inferInstanceAs (Decidable (s.start = .returned))
  | .client c _ => inferInstanceAs (Decidable (∀ w : Fin n, s.client c = .next w → _))
  | .start => isTrue trivial
  | .add _ _ => isTrue trivial
  | .work _ => isTrue trivial
  | .spurious _ => isTrue trivial

structure Joining (s : Pool n C M) : Prop where
  started : ∀ c, (s.client c).destroys = true → s.start = .returned
  down : ∀ c, (s.client c).hasShut = true → s.shutdown = true
  awake : ∀ c (w : Fin n), s.client c = .join w → (s.worker w).parks = false

variable {debug : Bool} {s t : Pool n C M} {a : Act n C M} {c : C} {w : Fin n}

theorem ClientPc.destroys_of_hasShut {pc : ClientPc M} (h : pc.hasShut = true) :
    pc.destroys = true := by
  cases pc <;> first | rfl | cases h

theorem wake_parks {pc : WorkerPc M} (h : pc ≠ .wait) : pc.wake.parks = false := by
  cases pc with
  | wait => exact absurd rfl h
  | _ => rfl

theorem ne_wait_of_parks {pc : WorkerPc M} (h : pc.parks = false) : pc ≠ .wait := by
  rintro rfl
  cases h

namespace Joining

theorem early (h : Joining s) (early : s.start ≠ .returned) (client : t.client = s.client) :
    Joining t := by
  have nobody : ∀ c, (t.client c).destroys = false := by
    intro c
    rw [client]
    exact Bool.eq_false_iff.mpr fun d => early (h.started c d)
  have out : ∀ {c} {P : Prop}, (t.client c).destroys = true → P :=
    fun d => by cases d.symm.trans (nobody _)
  refine ⟨fun c d => out d, fun c d => out (ClientPc.destroys_of_hasShut d), fun c w hc => ?_⟩
  exact out (c := c) (by rw [hc]; rfl)

variable [DecidableEq C]

theorem client (h : Joining s) {pc : ClientPc M} (start : t.start = s.start)
    (shutdown : s.shutdown = true → t.shutdown = true)
    (client : t.client = Function.update s.client c pc)
    (worker : ∀ w, (s.worker w).parks = false → (t.worker w).parks = false)
    (started : pc.destroys = true → s.start = .returned)
    (down : pc.hasShut = true → t.shutdown = true)
    (awake : ∀ w : Fin n, pc = .join w → (t.worker w).parks = false) : Joining t where
  started := by
    rw [client, start]
    exact forall_update (Q := fun pc : ClientPc M => pc.destroys = true → _) h.started started
  down := by
    rw [client]
    exact forall_update (Q := fun pc : ClientPc M => pc.hasShut = true → _)
      (fun c d => shutdown (h.down c d)) down
  awake := by
    rw [client]
    exact forall_update (Q := fun pc : ClientPc M =>
      ∀ w : Fin n, pc = .join w → (t.worker w).parks = false)
      (fun c w hc => worker w (h.awake c w hc)) awake

omit [DecidableEq C] in
theorem worker (h : Joining s) {pc : WorkerPc M} (start : t.start = s.start)
    (shutdown : t.shutdown = s.shutdown) (client : t.client = s.client)
    (worker : t.worker = Function.update s.worker w pc)
    (awake : s.shutdown = true → (s.worker w).parks = false → pc.parks = false) : Joining t where
  started := by rw [client, start]; exact h.started
  down := by rw [client, shutdown]; exact h.down
  awake := by
    intro c u hc
    rw [client] at hc
    have old := h.awake c u hc
    rw [worker]
    by_cases hu : u = w
    · subst hu
      rw [Function.update_self]
      exact awake (h.down c (by rw [hc]; rfl)) old
    · rwa [Function.update_of_ne hu]

theorem step (h : Joining s) (ok : JoinsAwake s a) (hs : Step debug s a t) : Joining t := by
  have same : ∀ w, (s.worker w).parks = false → (s.worker w).parks = false := fun _ out => out
  have wake : ∀ w, (s.worker w).parks = false → (s.worker w).wake.parks = false :=
    fun _ out => wake_parks (ne_wait_of_parks out)
  cases hs with
  | call hs | reset hs | clear hs => exact h.early (by rw [hs]; nofun) rfl
  | create _ hs | started hs => exact h.early (by rw [hs]; nofun) rfl
  | add | acquireAdd | push | load | store | unlockAdd | signalNobody =>
    exact h.client rfl id rfl same nofun nofun nofun
  | destory => exact h.client rfl id rfl same (fun _ => ok) nofun nofun
  | @signal c w =>
    refine h.client rfl id rfl ?_ nofun nofun nofun
    intro u out
    change (Function.update s.worker w .woken u).parks = false
    by_cases hu : u = w
    · subst hu
      rw [Function.update_self]
      rfl
    · rwa [Function.update_of_ne hu]
  | testShutdown hc =>
    have mine := h.started _ (congrArg ClientPc.destroys hc)
    refine h.client rfl id rfl same (fun _ => mine) ?_ ?_ <;> split <;> nofun
  | shut hc =>
    have mine := h.started _ (congrArg ClientPc.destroys hc)
    exact h.client rfl (fun _ => rfl) rfl same (fun _ => mine) (fun _ => rfl) nofun
  | broadcast hc =>
    have mine := h.started _ (congrArg ClientPc.destroys hc)
    have down := h.down _ (congrArg ClientPc.hasShut hc)
    exact h.client rfl id rfl wake (fun _ => mine) (fun _ => down) nofun
  | next hc =>
    have mine := h.started _ (congrArg ClientPc.destroys hc)
    have down := h.down _ (congrArg ClientPc.hasShut hc)
    refine h.client rfl id rfl wake (fun _ => mine) (fun _ => down) ?_
    rintro w ⟨⟩
    exact wake_parks (ok w hc)
  | joined hc =>
    have mine := h.started _ (congrArg ClientPc.destroys hc)
    have down := h.down _ (congrArg ClientPc.hasShut hc)
    exact h.client rfl id rfl same (fun _ => mine) (fun _ => down) nofun
  | join _ hc =>
    have mine := h.started _ (congrArg ClientPc.destroys hc)
    have down := h.down _ (congrArg ClientPc.hasShut hc)
    exact h.client rfl id rfl same (fun _ => mine) (fun _ => down) nofun
  | empty _ empty => exact h.worker rfl rfl rfl rfl fun down _ => by cases down.symm.trans empty.2
  | wait hw => exact h.worker rfl rfl rfl rfl fun _ out => absurd hw (ne_wait_of_parks out)
  | spin => exact h
  | check => exact h.worker rfl rfl rfl rfl fun _ _ => by split <;> rfl
  | _ => exact h.worker rfl rfl rfl rfl fun _ _ => rfl

end Joining

variable [DecidableEq C] [DecidableEq M]

theorem reach_joining (h : ReachIf (step debug) JoinsAwake Pool.init s) : Joining s :=
  h.invariant (I := Joining) ⟨nofun, nofun, nofun⟩ fun _ _ _ _ ih ok hs =>
    ih.step ok (step_cases hs)

theorem blocked_of_next {wake : Option (Fin n)} (hc : s.client c = .next w)
    (hs : step debug s (.client c wake) = some t) (ht : t.client c = .join w)
    (hw : s.worker w = .wait) :
    ∃ u, step debug t (.work w) = some u ∧ u.client c = .join w ∧ u.worker w = .blocked := by
  cases step_cases hs with
  | @next c wake i =>
    have still : (s.broadcast.setClient c (.join i)).worker w = .wait :=
      congrArg WorkerPc.wake hw
    exact ⟨_, (Step.wait still).eq, ht, Function.update_self ..⟩
  | joined => cases ht.symm.trans (Function.update_self ..)
  | join _ pc => cases pc.symm.trans hc
  | _ pc => cases pc.symm.trans hc

/-- `pool_destory` does not join a worker that waits for a signal nobody has sent; and the condition
on its broadcasts is needed for that. -/
theorem joins_awake (h : ReachIf (step debug) JoinsAwake Pool.init s) :
    (∀ c (w : Fin n), s.client c = .join w → s.worker w ≠ .blocked) ∧
    ∀ c (w : Fin n) wake t, s.client c = .next w → step debug s (.client c wake) = some t →
      t.client c = .join w → s.worker w = .wait →
      ∃ u, step debug t (.work w) = some u ∧ u.client c = .join w ∧ u.worker w = .blocked := by
  constructor
  · intro c w hc hw
    have awake := (reach_joining h).awake c w hc
    rw [hw] at awake
    cases awake
  · exact fun _ _ _ _ hc hs ht hw => blocked_of_next hc hs ht hw

theorem joins_awake_of_one : ∃ s : Pool 1 (Fin 1) Nat,
    (s.client 0 = .join 0 ∧ s.worker 0 = .woken) ∧
    (∀ c (w : Fin 1), s.client c = .join w → s.worker w ≠ .blocked) ∧
    ∀ c (w : Fin 1) wake t, s.client c = .next w → step true s (.client c wake) = some t →
      t.client c = .join w → s.worker w = .wait →
      ∃ u, step true t (.work w) = some u ∧ u.client c = .join w ∧ u.worker w = .blocked := by
  obtain ⟨s, hs, hp⟩ := exists_reachIf (step true) JoinsAwake Pool.init
    [.start, .start, .start, .start, .start, .work 0, .work 0, .work 0, .destory 0, .client 0 none,
      .client 0 none, .client 0 none, .client 0 none]
    (fun s : Pool 1 (Fin 1) Nat => decide (s.client 0 = .join 0 ∧ s.worker 0 = .woken)) (by decide)
  exact ⟨s, of_decide_eq_true hp, joins_awake hs⟩

/-- The worker has tested `shutdown` and waits when all broadcasts are over. -/
theorem blocked_in_join :
    ¬ ∀ s : Pool 1 (Fin 1) Nat, Reach (step true) Pool.init s →
      ∀ c (w : Fin 1), s.client c = .join w → s.worker w ≠ .blocked := by
  intro all
  obtain ⟨s, hs, hp⟩ := exists_reach (step true) Pool.init
    [.start, .start, .start, .start, .start, .work 0, .work 0, .destory 0, .client 0 none,
      .client 0 none, .client 0 none, .client 0 none, .work 0]
    (fun s : Pool 1 (Fin 1) Nat => decide (s.client 0 = .join 0 ∧ s.worker 0 = .blocked))
    (by decide)
  obtain ⟨hc, hw⟩ := of_decide_eq_true hp
  exact all s hs 0 0 hc hw

end Leano.PthreadPool
