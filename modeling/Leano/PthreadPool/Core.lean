import Leano.PthreadPool.Defs
import Leano.Lib.Lock
import Leano.Lib.Total

/-! What `queue_lock` protects, seen with the position of the thread that holds it. All threads but
the holder leave it alone, except for `start` and the writes of `shutdown`. -/

universe u v

namespace Leano.PthreadPool

open Leano.Lib

variable {n : Nat} {C : Type v} {M : Type u}

inductive Place (M : Type u) where
  | free
  | worker (pc : WorkerPc M)
  | client (pc : ClientPc M)

structure Core (M : Type u) where
  queueB : List M
  curQueueSize : Int
  shutdown : Bool
  place : Place M

namespace Core

def reset (c : Core M) : Core M := { c with curQueueSize := 0 }

inductive Step (debug : Bool) (c : Core M) : Core M → Prop
  | same : Step debug c c
  | clear : (∀ pc, c.place ≠ .worker pc) → Step debug c { c with shutdown := false }
  | shut : Step debug c { c with shutdown := true }
  | enterAdd {newMsg} : c.place = .free → Step debug c { c with place := .client (.push newMsg) }
  | push {newMsg} : c.place = .client (.push newMsg) →
      Step debug c { c with queueB := c.queueB ++ [newMsg], place := .client .load }
  | load : c.place = .client .load →
      Step debug c { c with place := .client (.store c.curQueueSize) }
  | store {cur} : c.place = .client (.store cur) →
      Step debug c { c with curQueueSize := cur + 1, place := .client .unlock }
  | leaveAdd : c.place = .client .unlock → Step debug c { c with place := .free }
  | enter : c.place = .free → Step debug c { c with place := .worker .test }
  | empty : c.place = .worker .test → debug = true → Step debug c { c with place := .worker .wait }
  | wait : c.place = .worker .wait → Step debug c { c with place := .free }
  | proceed : c.place = .worker .test → ¬ (c.curQueueSize = 0 ∧ c.shutdown = false) →
      Step debug c { c with place := .worker .check }
  | check : c.place = .worker .check →
      Step debug c { c with place := .worker (if c.shutdown then .unlockExit else .guard) }
  | exit : c.place = .worker .unlockExit → Step debug c { c with place := .free }
  | take : c.place = .worker .guard → 0 < c.curQueueSize →
      Step debug c { c with curQueueSize := c.curQueueSize - 1, place := .worker .front }
  | relock : c.place = .worker .guard → ¬ 0 < c.curQueueSize →
      Step debug c { c with place := .worker .relock }
  | fault : c.place = .worker .front → c.queueB = [] →
      Step debug c { c with place := .worker .fault }
  | pop {qMsg rest} : c.place = .worker .front → c.queueB = qMsg :: rest →
      Step debug c { c with queueB := rest, place := .worker (.unlock qMsg) }
  | leave {qMsg} : c.place = .worker (.unlock qMsg) → Step debug c { c with place := .free }

end Core

namespace Pool

def inside (s : Pool n C M) : Fin n ⊕ C → Bool :=
  Sum.elim (fun w => (s.worker w).inside) fun c => (s.client c).inside

def place (s : Pool n C M) : Place M :=
  match s.queueLock with
  | none => .free
  | some (.inl w) => .worker (s.worker w)
  | some (.inr c) => .client (s.client c)

def core (s : Pool n C M) : Core M := ⟨s.queueB, s.curQueueSize, s.shutdown, s.place⟩

end Pool

def StartPc.created (n : Nat) : StartPc → Nat
  | .create i => i
  | .returned => n
  | _ => 0

def WorkerPc.isUnborn : WorkerPc M → Bool
  | .unborn => true
  | _ => false

def Booting (s : Pool n C M) : Prop :=
  ∀ w, (s.worker w).isUnborn = decide (s.start.created n ≤ w)

def Locked (s : Pool n C M) : Prop := Exclusive s.inside s.queueLock

variable {s s' : Pool n C M} {w : Fin n} {c : C}

theorem wake_isUnborn (pc : WorkerPc M) : pc.wake.isUnborn = pc.isUnborn := by
  cases pc <;> rfl

namespace Booting

theorem quiet (h : Booting s) (start : s'.start.created n = s.start.created n)
    (same : ∀ w, (s'.worker w).isUnborn = (s.worker w).isUnborn) : Booting s' := by
  intro w
  rw [same, start]
  exact h w

theorem move (h : Booting s) {pc : WorkerPc M} (worker : s'.worker = Function.update s.worker w pc)
    (start : s'.start = s.start) (same : pc.isUnborn = (s.worker w).isUnborn) : Booting s' := by
  apply h.quiet (congrArg _ start)
  rw [worker]
  exact apply_update_eq same

theorem unborn (h : Booting s) (early : s.start.created n ≤ w) : s.worker w = .unborn := by
  have unborn := h w
  rw [decide_eq_true early] at unborn
  cases hw : s.worker w with
  | unborn => rfl
  | _ => rw [hw] at unborn; cases unborn

theorem step {debug : Bool} {a : Act n C M} [DecidableEq C] (h : Booting s)
    (hs : Step debug s a s') : Booting s' := by
  cases hs with
  | call hs => exact h.quiet (by rw [hs]; rfl) fun _ => rfl
  | reset hs => exact h.quiet (by rw [hs]; rfl) fun _ => rfl
  | clear hs => exact h.quiet (by rw [hs]; rfl) fun _ => rfl
  | @create i hi hs =>
    intro w
    have before := h w
    rw [hs] at before
    by_cases hw : w = ⟨i, hi⟩
    · subst hw
      simp [Pool.setWorker, WorkerPc.isUnborn, StartPc.created]
    · have : i ≠ w := fun e => hw (Fin.ext e.symm)
      simp only [Pool.setWorker, Function.update_of_ne hw, before, StartPc.created]
      exact decide_eq_decide.mpr (by omega)
  | started hs last =>
    intro w
    have before := h w
    rw [hs] at before
    rw [before]
    exact decide_eq_decide.mpr (by simp only [StartPc.created]; omega)
  | signal hc hw => exact h.move rfl rfl (by rw [hw]; rfl)
  | broadcast => exact h.quiet rfl fun w => wake_isUnborn _
  | next => exact h.quiet rfl fun w => wake_isUnborn _
  | acquire hw => exact h.move rfl rfl (by rcases hw with hw | hw <;> rw [hw] <;> rfl)
  | empty hw => exact h.move rfl rfl (by rw [hw]; rfl)
  | wait hw => exact h.move rfl rfl (by rw [hw]; rfl)
  | proceed hw => exact h.move rfl rfl (by rw [hw]; rfl)
  | check hw => exact h.move rfl rfl (by rw [hw]; split <;> rfl)
  | unlockExit hw => exact h.move rfl rfl (by rw [hw]; rfl)
  | take hw => exact h.move rfl rfl (by rw [hw]; rfl)
  | relock hw => exact h.move rfl rfl (by rw [hw]; rfl)
  | fault hw => exact h.move rfl rfl (by rw [hw]; rfl)
  | pop hw => exact h.move rfl rfl (by rw [hw]; rfl)
  | unlock hw => exact h.move rfl rfl (by rw [hw]; rfl)
  | process hw => exact h.move rfl rfl (by rw [hw]; rfl)
  | delete hw => exact h.move rfl rfl (by rw [hw]; rfl)
  | spurious hw => exact h.move rfl rfl (by rw [hw]; rfl)
  | _ => exact h.quiet rfl fun _ => rfl

end Booting

theorem Locked.worker (h : Locked s) {pc : WorkerPc M} (hw : s.worker w = pc)
    (inside : pc.inside = true) : s.queueLock = some (.inl w) :=
  (h (.inl w)).mp ((congrArg WorkerPc.inside hw).trans inside)

theorem Locked.client (h : Locked s) {pc : ClientPc M} (hc : s.client c = pc)
    (inside : pc.inside = true) : s.queueLock = some (.inr c) :=
  (h (.inr c)).mp ((congrArg ClientPc.inside hc).trans inside)

theorem wake_inside (pc : WorkerPc M) : pc.wake.inside = pc.inside := by
  cases pc <;> rfl

theorem inside_broadcast (s : Pool n C M) : s.broadcast.inside = s.inside := by
  funext t
  cases t with
  | inl w => exact wake_inside _
  | inr c => rfl

theorem Locked.core_broadcast (h : Locked s) : s.broadcast.core = s.core := by
  simp only [Pool.core, Pool.place, Pool.broadcast]
  cases lock : s.queueLock with
  | none => rfl
  | some t =>
    cases t with
    | inl w =>
      have inside : (s.worker w).inside = true := (h (.inl w)).mpr lock
      cases hw : s.worker w with
      | blocked => rw [hw] at inside; cases inside
      | _ => simp [hw, WorkerPc.wake]
    | inr c => rfl

theorem place_of_free (free : s.queueLock = none) : s.core.place = .free := by
  simp only [Pool.core, Pool.place, free]

theorem Locked.place_worker (h : Locked s) {pc : WorkerPc M} (hw : s.worker w = pc)
    (inside : pc.inside = true) : s.core.place = .worker pc := by
  simp only [Pool.core, Pool.place, h.worker hw inside, hw]

theorem Locked.place_client (h : Locked s) {pc : ClientPc M} (hc : s.client c = pc)
    (inside : pc.inside = true) : s.core.place = .client pc := by
  simp only [Pool.core, Pool.place, h.client hc inside, hc]

theorem core_setWorker (lock : s.queueLock = some (.inl w)) (pc : WorkerPc M) :
    (s.setWorker w pc).core = { s.core with place := .worker pc } := by
  simp [Pool.core, Pool.place, Pool.setWorker, lock]

theorem Locked.core_worker (h : Locked s) (out : (s.worker w).inside = false) (pc : WorkerPc M) :
    (s.setWorker w pc).core = s.core := by
  have other : ∀ u, s.queueLock = some (.inl u) → u ≠ w := by
    rintro u hu rfl
    rw [Bool.eq_false_iff] at out
    exact out ((h (.inl u)).mpr hu)
  simp only [Pool.core, Pool.place, Pool.setWorker]
  cases lock : s.queueLock with
  | none => rfl
  | some t =>
    cases t with
    | inl u => simp [Function.update_of_ne (other u lock)]
    | inr c => rfl

variable [DecidableEq C]

theorem inside_setWorker (s : Pool n C M) (w : Fin n) (pc : WorkerPc M) :
    (s.setWorker w pc).inside = Function.update s.inside (.inl w) pc.inside := by
  funext t
  cases t with
  | inl u => by_cases hu : u = w <;> simp [Pool.inside, Pool.setWorker, hu]
  | inr c => simp [Pool.inside, Pool.setWorker]

theorem inside_setClient (s : Pool n C M) (c : C) (pc : ClientPc M) :
    (s.setClient c pc).inside = Function.update s.inside (.inr c) pc.inside := by
  funext t
  cases t with
  | inl w => simp [Pool.inside, Pool.setClient]
  | inr d => by_cases hd : d = c <;> simp [Pool.inside, Pool.setClient, hd]

theorem core_setClient (lock : s.queueLock = some (.inr c)) (pc : ClientPc M) :
    (s.setClient c pc).core = { s.core with place := .client pc } := by
  simp [Pool.core, Pool.place, Pool.setClient, lock]

theorem Locked.core_client (h : Locked s) (out : (s.client c).inside = false) (pc : ClientPc M) :
    (s.setClient c pc).core = s.core := by
  have other : ∀ d, s.queueLock = some (.inr d) → d ≠ c := by
    rintro d hd rfl
    rw [Bool.eq_false_iff] at out
    exact out ((h (.inr d)).mpr hd)
  simp only [Pool.core, Pool.place, Pool.setClient]
  cases lock : s.queueLock with
  | none => rfl
  | some t =>
    cases t with
    | inl w => rfl
    | inr d => simp [Function.update_of_ne (other d lock)]

namespace Locked

theorem setWorker (h : Locked s) {pc : WorkerPc M} (same : pc.inside = (s.worker w).inside) :
    Locked (s.setWorker w pc) := by
  unfold Locked
  rw [inside_setWorker]
  exact h.stay same

theorem setClient (h : Locked s) {pc : ClientPc M} (same : pc.inside = (s.client c).inside) :
    Locked (s.setClient c pc) := by
  unfold Locked
  rw [inside_setClient]
  exact h.stay same

theorem enterWorker (h : Locked s) (free : s.queueLock = none) (w : Fin n) {pc : WorkerPc M}
    (inside : pc.inside = true) :
    Locked ({ s with queueLock := some (.inl w) }.setWorker w pc) := by
  unfold Locked at h ⊢
  rw [inside_setWorker, inside]
  rw [free] at h
  exact h.enter (.inl w)

theorem leaveWorker (h : Locked s) (hw : (s.worker w).inside = true) {pc : WorkerPc M}
    (outside : pc.inside = false) : Locked ({ s with queueLock := none }.setWorker w pc) := by
  unfold Locked at h ⊢
  rw [inside_setWorker, outside]
  exact h.leave hw

theorem enterClient (h : Locked s) (free : s.queueLock = none) (c : C) {pc : ClientPc M}
    (inside : pc.inside = true) :
    Locked ({ s with queueLock := some (.inr c) }.setClient c pc) := by
  unfold Locked at h ⊢
  rw [inside_setClient, inside]
  rw [free] at h
  exact h.enter (.inr c)

theorem leaveClient (h : Locked s) (hc : (s.client c).inside = true) {pc : ClientPc M}
    (outside : pc.inside = false) : Locked ({ s with queueLock := none }.setClient c pc) := by
  unfold Locked at h ⊢
  rw [inside_setClient, outside]
  exact h.leave hc

omit [DecidableEq C] in
theorem broadcast (h : Locked s) : Locked s.broadcast := by
  unfold Locked
  rw [inside_broadcast]
  exact h

theorem step {debug : Bool} {a : Act n C M} (boot : Booting s) (h : Locked s)
    (hs : Step debug s a s') : Locked s' := by
  cases hs with
  | create i hs => exact h.setWorker (by rw [boot.unborn (by rw [hs]; exact le_rfl)]; rfl)
  | add hc => exact h.setClient (by rw [hc]; rfl)
  | destory hc => exact h.setClient (by rw [hc]; rfl)
  | acquireAdd hc free => exact h.enterClient free _ rfl
  | push hc => exact h.setClient (by rw [hc]; rfl)
  | load hc => exact h.setClient (by rw [hc]; rfl)
  | store hc => exact h.setClient (by rw [hc]; rfl)
  | unlockAdd hc => exact h.leaveClient (by rw [hc]; rfl) rfl
  | signal hc hw =>
    apply (h.setClient (by rw [hc]; rfl)).setWorker
    exact (congrArg WorkerPc.inside hw).symm
  | signalNobody hc => exact h.setClient (by rw [hc]; rfl)
  | testShutdown hc => exact h.setClient (by rw [hc]; split <;> rfl)
  | shut hc => exact h.setClient (by rw [hc]; rfl)
  | broadcast hc => exact h.broadcast.setClient (congrArg ClientPc.inside hc).symm
  | next hc => exact h.broadcast.setClient (congrArg ClientPc.inside hc).symm
  | joined hc => exact h.setClient (by rw [hc]; rfl)
  | join i hc => exact h.setClient (by rw [hc]; rfl)
  | acquire hw free => exact h.enterWorker free _ rfl
  | empty hw => exact h.setWorker (by rw [hw]; rfl)
  | wait hw => exact h.leaveWorker (by rw [hw]; rfl) rfl
  | proceed hw => exact h.setWorker (by rw [hw]; rfl)
  | check hw => exact h.setWorker (by rw [hw]; split <;> rfl)
  | unlockExit hw => exact h.leaveWorker (by rw [hw]; rfl) rfl
  | take hw => exact h.setWorker (by rw [hw]; rfl)
  | relock hw => exact h.setWorker (by rw [hw]; rfl)
  | fault hw => exact h.setWorker (by rw [hw]; rfl)
  | pop hw => exact h.setWorker (by rw [hw]; rfl)
  | unlock hw => exact h.leaveWorker (by rw [hw]; rfl) rfl
  | process hw => exact h.setWorker (by rw [hw]; rfl)
  | delete hw => exact h.setWorker (by rw [hw]; rfl)
  | spurious hw => exact h.setWorker (by rw [hw]; rfl)
  | _ => exact h

end Locked

theorem Core.Step.stay {debug : Bool} {c d : Core M} (h : d = c) : Core.Step debug c d := h ▸ .same

omit [DecidableEq C] in
theorem no_worker (boot : Booting s) (h : Locked s) (early : s.start.created n = 0) :
    ∀ pc, s.core.place ≠ .worker pc := by
  intro pc
  rw [Pool.core, Pool.place]
  split
  case h_1 => exact nofun
  case h_2 w lock =>
    have inside : (s.worker w).inside = true := (h (.inl w)).mpr lock
    rw [boot.unborn (by rw [early]; exact Nat.zero_le _)] at inside
    cases inside
  case h_3 => exact nofun

def Resets (s : Pool n C M) (a : Act n C M) : Prop := a = .start ∧ s.start = .reset

theorem core_of_reset {debug : Bool} {a : Act n C M} (now : Resets s a)
    (hs : Step debug s a s') : s'.core = s.core.reset := by
  obtain ⟨rfl, now⟩ := now
  cases hs with
  | reset => rfl
  | create _ hs => cases hs.symm.trans now
  | _ hs => cases hs.symm.trans now

theorem core_of_step {debug : Bool} {a : Act n C M} (boot : Booting s) (h : Locked s)
    (hs : Step debug s a s') (other : ¬ Resets s a) : Core.Step debug s.core s'.core := by
  cases hs with
  | reset hs => exact absurd ⟨rfl, hs⟩ other
  | clear hs => exact .clear (no_worker boot h (by rw [hs]; rfl))
  | create i hs =>
    have unborn := boot.unborn (w := ⟨_, i⟩) (by rw [hs]; exact le_rfl)
    exact .stay (h.core_worker (by rw [unborn]; rfl) _)
  | add hc => exact .stay (h.core_client (by rw [hc]; rfl) _)
  | destory hc => exact .stay (h.core_client (by rw [hc]; rfl) _)
  | acquireAdd hc free =>
    rw [core_setClient rfl]
    exact .enterAdd (place_of_free free)
  | push hc =>
    rw [core_setClient]
    · exact .push (h.place_client hc rfl)
    · exact h.client hc rfl
  | load hc =>
    rw [core_setClient (h.client hc rfl)]
    exact .load (h.place_client hc rfl)
  | store hc =>
    rw [core_setClient]
    · exact .store (h.place_client hc rfl)
    · exact h.client hc rfl
  | unlockAdd hc => exact .leaveAdd (h.place_client hc rfl)
  | @signal c w hc hw =>
    have idle : Locked (s.setClient c .idle) := h.setClient (by rw [hc]; rfl)
    have woken := idle.core_worker ((congrArg WorkerPc.inside hw).trans rfl) .woken
    exact .stay (woken.trans (h.core_client (by rw [hc]; rfl) _))
  | signalNobody hc => exact .stay (h.core_client (by rw [hc]; rfl) _)
  | testShutdown hc => exact .stay (h.core_client (by rw [hc]; rfl) _)
  | @shut c wake hc =>
    have same := h.core_client (by rw [hc]; rfl) .broadcast
    have moved : Core.Step debug s.core _ := .shut
    exact same ▸ moved
  | broadcast hc =>
    have same := h.broadcast.core_client ((congrArg ClientPc.inside hc).trans rfl) (.next 0)
    exact .stay (same.trans h.core_broadcast)
  | @next c wake i hc =>
    have same := h.broadcast.core_client ((congrArg ClientPc.inside hc).trans rfl) (.join i)
    exact .stay (same.trans h.core_broadcast)
  | joined hc => exact .stay (h.core_client (by rw [hc]; rfl) _)
  | join i hc => exact .stay (h.core_client (by rw [hc]; rfl) _)
  | acquire hw free =>
    rw [core_setWorker rfl]
    exact .enter (place_of_free free)
  | empty hw _ dbg =>
    rw [core_setWorker (h.worker hw rfl)]
    exact .empty (h.place_worker hw rfl) dbg
  | wait hw => exact .wait (h.place_worker hw rfl)
  | proceed hw go =>
    rw [core_setWorker (h.worker hw rfl)]
    exact .proceed (h.place_worker hw rfl) go
  | check hw =>
    rw [core_setWorker (h.worker hw rfl)]
    exact .check (h.place_worker hw rfl)
  | unlockExit hw => exact .exit (h.place_worker hw rfl)
  | take hw pos =>
    rw [core_setWorker]
    · exact .take (h.place_worker hw rfl) pos
    · exact h.worker hw rfl
  | relock hw none =>
    rw [core_setWorker (h.worker hw rfl)]
    exact .relock (h.place_worker hw rfl) none
  | fault hw hq =>
    rw [core_setWorker (h.worker hw rfl)]
    exact .fault (h.place_worker hw rfl) hq
  | pop hw hq =>
    rw [core_setWorker]
    · exact .pop (h.place_worker hw rfl) hq
    · exact h.worker hw rfl
  | unlock hw => exact .leave (h.place_worker hw rfl)
  | process hw => exact .stay (h.core_worker (by rw [hw]; rfl) _)
  | delete hw => exact .stay (h.core_worker (by rw [hw]; rfl) _)
  | spurious hw => exact .stay (h.core_worker (by rw [hw]; rfl) _)
  | _ => exact .same

end Leano.PthreadPool
