import Leano.ThreadPool.Signals
import Leano.SyncQueue.Settling

universe u v

namespace Leano.ThreadPool

open Leano.Lib
open SyncQueue (InTake Op Evolves pendingPut toDo)

variable {n : Nat} {C : Type v} {T : Type u}

/-- The steps that are nobody's call, no spurious wake-up, and no return of `sigwait` but for its
signal. -/
def Act.settles : Act n C T → Bool
  | .client _ => true
  | .work _ ret => decide (ret = .zero)
  | .queue (.run _ _) => true
  | _ => false

def ClientPc.inStop : ClientPc n → Bool
  | .stopQueue => true
  | .stopFlag => true
  | .join _ => true
  | .stopWait => true
  | _ => false

structure Unstopped (s : Pool n C T) : Prop where
  needStop : s.queue.q.needStop = false
  client : ∀ c, (s.client c).inStop = false

def InPut (ph : Phase (Op T) (SyncQueue.Res T)) : Prop :=
  (∃ x, ph.op? = some (.put x)) ∨ ph = .returned .put

def ClientPc.Fits (pc : ClientPc n) (ph : Phase (Op T) (SyncQueue.Res T)) : Prop :=
  match pc with
  | .addData => InPut ph
  | .stopQueue => True
  | _ => ph = .idle

def ClientsPlaced (s : Pool n C T) : Prop :=
  ∀ c, (s.client c).Fits (s.queue.threads (.inr c))

theorem InPut.evolve {ph ph' : Phase (Op T) (SyncQueue.Res T)} {gained : List T} (h : InPut ph)
    (he : Evolves ph ph' gained) : InPut ph' := by
  have put_of : ∀ {op}, ph.section? = some op → ∃ x, op = .put x := by
    intro op hs
    rcases h with ⟨x, hx⟩ | rfl
    · rw [Phase.op?_of_section hs] at hx
      exact ⟨x, Option.some.inj hx⟩
    · cases hs
  cases he with
  | same => exact h
  | wake =>
    rcases h with ⟨x, hx⟩ | hr
    · exact .inl ⟨x, hx⟩
    · cases hr
  | block hs =>
    obtain ⟨x, rfl⟩ := put_of hs
    exact .inl ⟨x, rfl⟩
  | put => exact .inr rfl
  | stopped hs hr =>
    obtain ⟨x, rfl⟩ := put_of hs
    cases hr
    exact .inr rfl
  | _ hs =>
    obtain ⟨x, hx⟩ := put_of hs
    cases hx

variable [Fintype C] [DecidableEq C] {s s' t : Pool n C T} {a : Act n C T}

omit [Fintype C] in
theorem ClientsPlaced.update (h : ClientsPlaced s) {c : C} {pc : ClientPc n}
    {ph : Phase (Op T) (SyncQueue.Res T)} (new : pc.Fits ph)
    (client : s'.client = Function.update s.client c pc)
    (threads : s'.queue.threads = Function.update s.queue.threads (.inr c) ph) :
    ClientsPlaced s' := by
  intro u
  rw [client, threads]
  by_cases hu : u = c
  · subst hu
    rwa [Function.update_self, Function.update_self]
  · have apart : (.inr u : Fin n ⊕ C) ≠ .inr c := fun same => hu (Sum.inr.inj same)
    rw [Function.update_of_ne hu, Function.update_of_ne apart]
    exact h u

theorem ClientsPlaced.step (h : ClientsPlaced s) (hs : Step s a s') : ClientsPlaced s' := by
  have moves : ∀ {c : C} {pc old : ClientPc n} {s'}, s.client c = old →
      s'.client = Function.update s.client c pc → s'.queue = s.queue →
      old.Fits (s.queue.threads (.inr c)) = (s.queue.threads (.inr c) = .idle) →
      pc.Fits (.idle : Phase (Op T) (SyncQueue.Res T)) → ClientsPlaced s' := by
    intro c pc old s' hc client queue fits new
    have idle : s.queue.threads (.inr c) = .idle := fits.mp (hc ▸ h c)
    refine h.update new client ?_
    rw [queue, ← idle, Function.update_eq_self]
  have worker : ∀ {s'}, s'.client = s.client →
      (∀ c, s'.queue.threads (.inr c) = s.queue.threads (.inr c)) → ClientsPlaced s' := by
    intro s' client threads c
    rw [client, threads]
    exact h c
  cases hs with
  | @addData c x q hc hq =>
    obtain ⟨-, rfl⟩ := SyncQueue.eq_of_call hq
    exact h.update (show ClientPc.Fits .addData _ from .inl ⟨x, rfl⟩) rfl rfl
  | stop hc _ hq =>
    obtain ⟨-, rfl⟩ := SyncQueue.eq_of_call hq
    exact h.update (show ClientPc.Fits .stopQueue _ from trivial) rfl rfl
  | addDataDone hc hq =>
    obtain ⟨-, rfl⟩ := SyncQueue.eq_of_ret hq
    exact h.update (show ClientPc.Fits .idle _ from rfl) rfl rfl
  | stopQueue hc hq =>
    obtain ⟨-, rfl⟩ := SyncQueue.eq_of_ret hq
    exact h.update (show ClientPc.Fits .stopFlag _ from rfl) rfl rfl
  | pause hc => exact moves hc rfl rfl rfl rfl
  | continues hc => exact moves hc rfl rfl rfl rfl
  | stopAgain hc => exact moves hc rfl rfl rfl rfl
  | pauseDone hc => exact moves hc rfl rfl rfl rfl
  | pauseNext hc => exact moves hc rfl rfl rfl rfl
  | killDone hc => exact moves hc rfl rfl rfl rfl
  | killNext hc => exact moves hc rfl rfl rfl rfl
  | clear hc => exact moves hc rfl rfl rfl rfl
  | stopFlag hc => exact moves hc rfl rfl rfl rfl
  | joinDone hc => exact moves hc rfl rfl rfl rfl
  | joinNext hc => exact moves hc rfl rfl rfl rfl
  | stopWait hc => exact moves hc rfl rfl rfl rfl
  | enterTake _ _ hq =>
    obtain ⟨-, ht, -⟩ := queue_of_take hq
    exact worker rfl fun c => by simp [ht]
  | signalled _ _ hq =>
    obtain ⟨-, ht, -⟩ := queue_of_take hq
    exact worker rfl fun c => by simp [ht]
  | take _ _ hq =>
    obtain ⟨ht, -⟩ := queue_of_ret hq
    exact worker rfl fun c => by simp [ht]
  | @queue a q inner hq =>
    intro c
    obtain ⟨gained, he, -⟩ := SyncQueue.evolves_of_step (SyncQueue.step_cases hq) inner (.inr c)
    have fits := h c
    cases hc : s.client c with
    | addData =>
      rw [hc] at fits
      exact InPut.evolve fits he
    | stopQueue => trivial
    | _ =>
      rw [hc] at fits
      exact (he.idle fits).1
  | @drop w _ task => cases task <;> exact worker rfl fun _ => rfl
  | _ => exact worker rfl fun _ => rfl

theorem reach_clientsPlaced (h : Reach step Pool.init s) : ClientsPlaced s := by
  refine h.invariant (I := ClientsPlaced) (fun _ => rfl) ?_
  exact fun _ _ _ _ ih _ hs => ih.step (step_cases hs)

def StaysOn (s : Pool n C T) : Prop := s.running = true → ∀ w, s.worker w ≠ .exited

theorem StaysOn.step (h : StaysOn s) (hs : Step s a s') : StaysOn s' := by
  intro run
  have stays : ∀ {w : Fin n} {pc : WorkerPc T}, s.running = true → pc ≠ .exited →
      ∀ u, Function.update s.worker w pc u ≠ .exited :=
    fun run new => forall_update (Q := fun pc => pc ≠ WorkerPc.exited) (h run) new
  cases hs with
  | stopFlag => cases run
  | failed => cases run
  | @loop w =>
    have run : s.running = true := run
    exact stays run (by simp [run])
  | check => exact stays run (by simp)
  | enterTake => exact stays run (by simp)
  | signalled => exact stays run (by simp)
  | interrupted => exact stays run (by simp)
  | take => exact stays run (by simp)
  | test => exact stays run (by simp)
  | process => exact stays run (by simp)
  | @drop w _ task _ stopped =>
    cases task <;> cases stopped.symm.trans run
  | _ => exact h run

theorem reach_staysOn (h : Reach step Pool.init s) : StaysOn s := by
  refine h.invariant (I := StaysOn) (fun _ _ exited => by cases exited) ?_
  exact fun _ _ _ _ ih _ hs => ih.step (step_cases hs)

theorem putOrTake (reach : Reach step Pool.init s) (quiet : ∀ c, s.client c ≠ .stopQueue)
    {t : Fin n ⊕ C} {op : Op T} (inside : (s.queue.threads t).op? = some op) :
    (∃ x, op = .put x) ∨ op = .take := by
  cases t with
  | inl w =>
    have placed : (s.view w).Placed := (reach_accounted reach w).placed
    unfold View.Placed at placed
    split at placed
    case h_1 =>
      rcases placed with take | ⟨r, back⟩
      · exact .inr (Option.some.inj (inside.symm.trans take))
      · have back : s.queue.threads (.inl w) = _ := back
        cases back ▸ inside
    case h_2 =>
      have idle : s.queue.threads (.inl w) = _ := placed
      cases idle ▸ inside
  | inr c =>
    have placed := reach_clientsPlaced reach c
    cases hc : s.client c with
    | addData =>
      rw [hc] at placed
      rcases placed with ⟨x, put⟩ | back
      · exact .inl ⟨x, Option.some.inj (inside.symm.trans put)⟩
      · cases back ▸ inside
    | stopQueue => exact absurd hc (quiet c)
    | _ =>
      rw [hc] at placed
      have idle : s.queue.threads (.inr c) = _ := placed
      cases idle ▸ inside

omit [Fintype C] [DecidableEq C] in
theorem Unstopped.quiet (h : Unstopped s) (c : C) : s.client c ≠ .stopQueue := by
  intro stops
  cases (congrArg ClientPc.inStop stops).symm.trans (h.client c)

theorem needStop_of_step (h : Unstopped s) (reach : Reach step Pool.init s) (hs : Step s a s') :
    s'.queue.q.needStop = false := by
  rcases queue_of_step hs with same | ⟨b, hb⟩
  · rw [same]
    exact h.needStop
  · generalize s'.queue = q at hb ⊢
    cases SyncQueue.step_cases hb with
    | @call t op => cases op <;> exact h.needStop
    | stop hop =>
      rcases putOrTake reach h.quiet (Phase.op?_of_section hop) with ⟨x, put⟩ | take <;>
        contradiction
    | _ => exact h.needStop

theorem unstopped_of_step (h : s.once = .fresh → Unstopped s) (reach : Reach step Pool.init s)
    (hs : Step s a s') (fresh : s'.once = .fresh) : Unstopped s' := by
  have before : s.once = .fresh := by
    cases hs with
    | stop => cases fresh
    | joinDone => cases fresh
    | @drop w _ task => cases task <;> exact fresh
    | _ => exact fresh
  have h := h before
  have moved : ∀ {c : C} {pc : ClientPc n}, pc.inStop = false →
      ∀ d, (Function.update s.client c pc d).inStop = false :=
    fun new => forall_update (Q := fun pc : ClientPc n => pc.inStop = false) h.client new
  have in_stop : ∀ {c : C} {pc : ClientPc n} {P : Prop}, s.client c = pc → pc.inStop = true → P :=
    fun hc stops => by cases (congrArg ClientPc.inStop hc ▸ stops).symm.trans (h.client _)
  refine ⟨needStop_of_step h reach hs, ?_⟩
  cases hs with
  | addData => exact moved rfl
  | pause => exact moved rfl
  | continues => exact moved rfl
  | stop => cases fresh
  | stopAgain _ started => exact absurd before started
  | addDataDone => exact moved rfl
  | pauseDone => exact moved rfl
  | pauseNext => exact moved rfl
  | killDone => exact moved rfl
  | killNext => exact moved rfl
  | clear => exact moved rfl
  | stopQueue hc => exact in_stop hc rfl
  | stopFlag hc => exact in_stop hc rfl
  | joinDone hc => exact in_stop hc rfl
  | joinNext hc => exact in_stop hc rfl
  | stopWait hc => exact in_stop hc rfl
  | @drop w _ task => cases task <;> exact h.client
  | _ => exact h.client

theorem reach_unstopped (h : Reach step Pool.init s) (fresh : s.once = .fresh) : Unstopped s := by
  refine h.invariant (I := fun s => s.once = .fresh → Unstopped s)
    (fun _ => ⟨rfl, fun _ => rfl⟩) ?_ fresh
  exact fun _ _ _ reach ih _ hs => unstopped_of_step ih reach (step_cases hs)

def WorkerPc.toDo : WorkerPc T → Nat
  | .test _ => 8
  | .process _ => 7
  | .loop => 6
  | .check => 5
  | .sigwait => 4
  | .take => 0
  | .exited => 0

def ClientPc.toReturn (n : Nat) : ClientPc n → Nat
  | .idle => 0
  | .stopQueue => 0
  | .addData => 1
  | .stopWait => 1
  | .pause rest => rest.length + 1
  | .join rest => rest.length + 1
  | .kill rest => 2 * rest.length + 1
  | .clear _ rest => 2 * rest.length + 2
  | .stopFlag => n + 2

def Pool.toDo (s : Pool n C T) : Nat :=
  s.queue.load 9 + total WorkerPc.toDo s.worker + total (ClientPc.toReturn n) s.client

omit [DecidableEq C] in
theorem toDo_worker [DecidableEq C] {w : Fin n} {old pc : WorkerPc T} (hw : s.worker w = old)
    (worker : s'.worker = Function.update s.worker w pc) (client : s'.client = s.client)
    (less : s'.queue.load 9 + pc.toDo < s.queue.load 9 + old.toDo) : s'.toDo < s.toDo := by
  have moved := total_update WorkerPc.toDo s.worker w pc
  rw [hw, ← worker] at moved
  simp only [Pool.toDo, client]
  omega

theorem toDo_client {c : C} {old pc : ClientPc n} (hc : s.client c = old)
    (client : s'.client = Function.update s.client c pc) (worker : s'.worker = s.worker)
    (queue : s'.queue.load 9 ≤ s.queue.load 9) (less : pc.toReturn n < old.toReturn n) :
    s'.toDo < s.toDo := by
  have moved := total_update (ClientPc.toReturn n) s.client c pc
  rw [hc, ← client] at moved
  simp only [Pool.toDo, worker]
  omega

/-- A pool in which nobody has called `Stop` gets on with what it has to do. -/
theorem Unstopped.lowers (h : Unstopped s) (reach : Reach step Pool.init s)
    (running : s.running = true) (ha : a.settles = true) (hs : Step s a s') : s'.toDo < s.toDo := by
  have thread : ∀ {t : Fin n ⊕ C} {old} (ph : Phase (Op T) (SyncQueue.Res T)),
      s.queue.threads t = old →
      (s.queue.setThread t ph).load 9 + toDo (Fintype.card (Fin n ⊕ C)) 9 old =
        s.queue.load 9 + toDo (Fintype.card (Fin n ⊕ C)) 9 ph := by
    rintro t _ ph rfl
    exact SyncQueue.load_setThread _ _ _ _
  have called : ∀ {w q}, SyncQueue.step s.queue (.call (.inl w) .take) = some q →
      q.load 9 = s.queue.load 9 + 3 := by
    intro w q hq
    obtain ⟨idle, rfl⟩ := SyncQueue.eq_of_call hq
    exact thread (.ready .take) idle
  have back : ∀ {t q}, SyncQueue.step s.queue (.ret t) = some q → q.load 9 ≤ s.queue.load 9 := by
    intro t q hq
    obtain ⟨⟨r, back⟩, rfl⟩ := SyncQueue.eq_of_ret hq
    exact Nat.le_of_add_right_le (thread .idle back).le
  have in_stop : ∀ {c : C} {pc : ClientPc n} {P : Prop}, s.client c = pc → pc.inStop = true → P :=
    fun hc stops => by cases (congrArg ClientPc.inStop hc ▸ stops).symm.trans (h.client _)
  cases hs with
  | addData => cases ha
  | pause => cases ha
  | continues => cases ha
  | stop => cases ha
  | stopAgain => cases ha
  | addDataDone hc hq => exact toDo_client hc rfl rfl (back hq) Nat.one_pos
  | pauseDone hc => exact toDo_client hc rfl rfl le_rfl (Nat.succ_pos _)
  | pauseNext hc => exact toDo_client hc rfl rfl le_rfl (Nat.lt_succ_self _)
  | killDone hc => exact toDo_client hc rfl rfl le_rfl (Nat.succ_pos _)
  | killNext hc =>
    exact toDo_client hc rfl rfl le_rfl (by simp only [ClientPc.toReturn, List.length_cons]; omega)
  | clear hc => exact toDo_client hc rfl rfl le_rfl (Nat.lt_succ_self _)
  | stopQueue hc => exact in_stop hc rfl
  | stopFlag hc => exact in_stop hc rfl
  | joinDone hc => exact in_stop hc rfl
  | joinNext hc => exact in_stop hc rfl
  | stopWait hc => exact in_stop hc rfl
  | loop hw =>
    rw [running]
    exact toDo_worker hw rfl rfl (Nat.lt_succ_self _)
  | check hw => exact toDo_worker hw rfl rfl (Nat.lt_succ_self _)
  | enterTake hw _ hq =>
    have called := called hq
    exact toDo_worker hw rfl rfl (by simp only [WorkerPc.toDo]; omega)
  | signalled hw _ hq =>
    have called := called hq
    exact toDo_worker hw rfl rfl (by simp only [WorkerPc.toDo]; omega)
  | interrupted => cases ha
  | failed => cases ha
  | @take w ret task q hw back hq =>
    obtain ⟨-, rfl⟩ := SyncQueue.eq_of_ret hq
    have returned : (s.queue.setThread (.inl w) .idle).load 9 + 9 = s.queue.load 9 + 0 :=
      thread .idle back
    exact toDo_worker hw rfl rfl (by simp only [WorkerPc.toDo]; omega)
  | test hw => exact toDo_worker hw rfl rfl (Nat.lt_succ_self _)
  | drop _ stopped => cases stopped.symm.trans running
  | process hw => exact toDo_worker hw rfl rfl (Nat.lt_succ_self _)
  | @queue b q inner hq =>
    cases b with
    | run t w =>
      have go := needStop_of_step h reach (.queue inner hq)
      have less := SyncQueue.load_of_run (k := 9) (SyncQueue.step_cases hq) (.inl go)
      simp only [Pool.toDo]
      omega
    | _ => cases ha

abbrev settle : Pool n C T → Act n C T → Option (Pool n C T) := only Act.settles step

theorem settled_of_stuck (sections : ∀ t w, step s (.queue (.run t w)) = none) (t : Fin n ⊕ C) :
    (s.queue.threads t).section? = none := by
  refine Option.eq_none_iff_forall_ne_some.mpr fun op hop => ?_
  obtain ⟨w, q, hq⟩ := SyncQueue.exists_run hop
  have none := sections t w
  simp [step, SyncQueue.Act.isInner, Pool.onQueue, hq] at none

theorem worker_of_stuck (reach : Reach step Pool.init s) {w : Fin n}
    (works : s.runInThread w .zero = none)
    (settled : (s.queue.threads (.inl w)).section? = none) :
    s.worker w = .exited ∨ s.isParked w = true ∨
      s.worker w = .take ∧ s.queue.threads (.inl w) = .blocked .take := by
  have placed : (s.view w).Placed := (reach_accounted reach w).placed
  unfold Pool.runInThread at works
  unfold View.Placed at placed
  cases hw : s.worker w with
  | loop => simp [hw] at works
  | check =>
    have idle : s.queue.threads (.inl w) = .idle := by simpa [Pool.view, hw] using placed
    cases flag : s.waitsig w with
    | true => simp [hw, flag] at works
    | false =>
      simp [hw, flag, Pool.enterTake, Pool.onQueue, Pool.setWorker, SyncQueue.step, idle,
        Op.isEntry] at works
  | sigwait =>
    have idle : s.queue.threads (.inl w) = .idle := by simpa [Pool.view, hw] using placed
    refine .inr (.inl (isParked_iff.mpr ⟨hw, ?_⟩))
    by_contra pending
    simp [hw, Bool.eq_true_of_not_eq_false pending, Pool.enterTake, Pool.onQueue, Pool.setWorker,
      SyncQueue.step, idle, Op.isEntry] at works
  | take =>
    have inside : InTake (s.queue.threads (.inl w)) := by simpa [Pool.view, hw] using placed
    rcases inside with op | ⟨r, back⟩
    · refine .inr (.inr ⟨rfl, ?_⟩)
      cases ht : s.queue.threads (.inl w) with
      | blocked o => rw [ht] at op; exact congrArg _ (Option.some.inj op)
      | ready o => cases ht ▸ settled
      | woken o => cases ht ▸ settled
      | idle => cases ht ▸ op
      | returned r => cases ht ▸ op
    · simp [hw, back, Pool.onQueue, Pool.setWorker, SyncQueue.step] at works
  | test task => simp [hw] at works
  | process task => simp [hw] at works
  | exited => exact .inl rfl

theorem full_of_stuck (reach : Reach step Pool.init s) {c : C} (adds : s.client c = .addData)
    (returns : s.clientStep c = none) (settled : (s.queue.threads (.inr c)).section? = none) :
    ∃ x, s.queue.threads (.inr c) = .blocked (.put x) := by
  have placed := reach_clientsPlaced reach c
  rw [adds] at placed
  rcases placed with ⟨x, put⟩ | back
  · refine ⟨x, ?_⟩
    cases ht : s.queue.threads (.inr c) with
    | blocked o => rw [ht] at put; exact congrArg _ (Option.some.inj put)
    | ready o => cases ht ▸ settled
    | woken o => cases ht ▸ settled
    | idle => cases ht ▸ put
    | returned r => cases ht ▸ put
  · simp [Pool.clientStep, adds, back, Pool.onQueue, Pool.setClient, SyncQueue.step] at returns

section

variable (h : Unstopped s) (reach : Reach step Pool.init s) (running : s.running = true)
  (stuck : Stuck settle s)
include reach running stuck

omit h in
theorem parked_or_waits (w : Fin n) : s.isParked w = true ∨
    s.worker w = .take ∧ s.queue.threads (.inl w) = .blocked .take := by
  have works : s.runInThread w .zero = none :=
    stuck.of_only (show (Act.work w .zero : Act n C T).settles = true from rfl)
  have settled := settled_of_stuck (fun t w => stuck.of_only rfl) (.inl w)
  exact (worker_of_stuck reach works settled).resolve_left (reach_staysOn reach running w)

include h

/-- At rest beside a worker that is not paused the queue is empty, and no call is under way. -/
theorem Unstopped.emptied {w : Fin n} (awake : s.isParked w = false) :
    (∀ c, s.client c = .idle) ∧ s.queue.q.queue = [] := by
  have waits := (parked_or_waits reach running stuck w).resolve_left (by simp [awake])
  have taker : (s.queue.threads (.inl w)).isBlocked Op.onNotEmpty = true := by
    rw [waits.2]
    rfl
  have settled := settled_of_stuck (fun t w => stuck.of_only rfl)
  obtain ⟨empty, nobody⟩ := SyncQueue.empty_of_settled (by decide) (reach_queue reach) h.needStop
    settled ⟨_, taker⟩
  refine ⟨fun c => ?_, empty⟩
  have returns : s.clientStep c = none :=
    stuck.of_only (show (Act.client c : Act n C T).settles = true from rfl)
  have outside := h.client c
  cases hc : s.client c with
  | idle => rfl
  | addData =>
    obtain ⟨x, blocked⟩ := full_of_stuck reach hc returns (settled _)
    have nobody := nobody (.inr c)
    rw [blocked] at nobody
    cases nobody
  | pause rest => cases rest <;> simp [Pool.clientStep, hc] at returns
  | kill rest => cases rest <;> simp [Pool.clientStep, hc] at returns
  | clear w rest => simp [Pool.clientStep, hc] at returns
  | _ => rw [hc] at outside; cases outside

theorem Unstopped.processed_eq {w : Fin n} (awake : s.isParked w = false) :
    s.processed = (s.queue.offered : Multiset T) := by
  obtain ⟨idle, empty⟩ := h.emptied reach running stuck awake
  have outside : ∀ w, (s.worker w = .take ∨ s.worker w = .sigwait) ∧
      (s.queue.threads (.inl w) = .blocked .take ∨ s.queue.threads (.inl w) = .idle) := by
    intro w
    rcases parked_or_waits reach running stuck w with parked | ⟨take, blocked⟩
    · have sleeps := (isParked_iff.mp parked).1
      have placed : (s.view w).Placed := (reach_accounted reach w).placed
      exact ⟨.inr sleeps, .inr (by simpa [View.Placed, Pool.view, sleeps] using placed)⟩
    · exact ⟨.inl take, .inl blocked⟩
  have none : ∀ t, pendingPut (s.queue.threads t) = 0 := by
    intro t
    cases t with
    | inl w => rcases (outside w).2 with ht | ht <;> rw [ht] <;> rfl
    | inr c =>
      have placed := reach_clientsPlaced reach c
      rw [idle c] at placed
      rw [show s.queue.threads (.inr c) = .idle from placed]
      rfl
  have transit : s.inTransit = 0 := by
    refine Finset.sum_eq_zero fun w _ => ?_
    obtain ⟨pc, ph⟩ := outside w
    rcases pc with pc | pc <;> rcases ph with ph | ph <;> rw [pc, ph] <;> rfl
  have dropped : s.dropped = [] := by
    by_contra some
    have drops : DropsStopped s := by
      refine reach.invariant (I := DropsStopped) (fun some => absurd rfl some) ?_
      exact fun _ _ _ _ ih _ hs => ih.step (step_cases hs)
    cases running.symm.trans (drops some)
  have conserved := reach_conserved reach
  rw [SyncQueue.enqueued_of_idle (reach_queue reach) h.needStop none, empty, transit, dropped]
    at conserved
  simpa using conserved.symm

end

theorem Unstopped.keeps (h : Unstopped s) (ha : a.settles = true) (hs : Step s a s') :
    (s.running = true → s'.running = true) ∧ s'.once = s.once ∧
      s'.queue.offered = s.queue.offered := by
  have in_stop : ∀ {c : C} {pc : ClientPc n} {P : Prop}, s.client c = pc → pc.inStop = true → P :=
    fun hc stops => by cases (congrArg ClientPc.inStop hc ▸ stops).symm.trans (h.client _)
  have ret : ∀ {t q}, SyncQueue.step s.queue (.ret t) = some q → q.offered = s.queue.offered := by
    intro t q hq
    obtain ⟨-, rfl⟩ := SyncQueue.eq_of_ret hq
    rfl
  have take : ∀ {t q}, SyncQueue.step s.queue (.call t .take) = some q →
      q.offered = s.queue.offered := by
    intro t q hq
    obtain ⟨-, rfl⟩ := SyncQueue.eq_of_call hq
    rfl
  cases hs with
  | addData => cases ha
  | pause => cases ha
  | continues => cases ha
  | stop => cases ha
  | stopAgain => cases ha
  | stopQueue hc => exact in_stop hc rfl
  | stopFlag hc => exact in_stop hc rfl
  | joinDone hc => exact in_stop hc rfl
  | joinNext hc => exact in_stop hc rfl
  | stopWait hc => exact in_stop hc rfl
  | interrupted => cases ha
  | failed => cases ha
  | addDataDone _ hq => exact ⟨id, rfl, ret hq⟩
  | take _ _ hq => exact ⟨id, rfl, ret hq⟩
  | enterTake _ _ hq => exact ⟨id, rfl, take hq⟩
  | signalled _ _ hq => exact ⟨id, rfl, take hq⟩
  | @drop w _ task => cases task <;> exact ⟨id, rfl, rfl⟩
  | @queue b q inner hq =>
    refine ⟨id, rfl, ?_⟩
    cases b with
    | run t w => cases SyncQueue.step_cases hq <;> rfl
    | _ => cases ha
  | _ => exact ⟨id, rfl, rfl⟩

def Left (s t : Pool n C T) : Prop :=
  Reach step Pool.init t ∧ t.running = true ∧ t.once = .fresh ∧
    t.queue.offered = s.queue.offered

theorem Left.next {u v : Pool n C T} (h : Left s u) (hs : settle u a = some v) :
    Left s v ∧ v.toDo < u.toDo := by
  obtain ⟨reach, running, fresh, same⟩ := h
  obtain ⟨ha, hs⟩ := only_eq_some.mp hs
  have unstopped := reach_unstopped reach fresh
  obtain ⟨on, once, offered⟩ := unstopped.keeps ha (step_cases hs)
  exact ⟨⟨.next reach trivial hs, on running, once.trans fresh, offered.trans same⟩,
    unstopped.lowers reach running ha (step_cases hs)⟩

/-- Whenever nobody has stopped the pool: if no client calls again it comes to rest, and then,
unless every worker is paused, all calls have returned and every task ever added has been processed
once. -/
theorem processes_all (h : Reach step Pool.init s) (fresh : s.once = .fresh)
    (running : s.running = true) :
    Halts settle s ∧ ∀ t, Reach settle s t → Stuck settle t → (∃ w, t.isParked w = false) →
      (∀ c, t.client c = .idle) ∧ t.processed = (s.queue.offered : Multiset T) := by
  have start : Left s s := ⟨h, running, fresh, rfl⟩
  refine ⟨halts_of_lowers (I := Left s) Pool.toDo (fun _ _ _ hI hs => hI.next hs) start, ?_⟩
  rintro t hr stuck ⟨w, awake⟩
  obtain ⟨reach, running, fresh, offered⟩ : Left s t :=
    hr.invariant (I := Left s) start fun _ _ _ _ hI _ hs => (hI.next hs).1
  have unstopped := reach_unstopped reach fresh
  rw [← offered]
  exact ⟨(unstopped.emptied reach running stuck awake).1,
    unstopped.processed_eq reach running stuck awake⟩

theorem processes_all_of_two : ∃ s : Pool 2 (Fin 2) Nat,
    (s.client 1 = .addData ∧ (∀ w, s.waitsig w = true ∧ s.worker w = .take) ∧ s.calls = [] ∧
      s.queue.offered = [7]) ∧
      Halts settle s ∧
      ∀ t, Reach settle s t → Stuck settle t → (∃ w, t.isParked w = false) →
        (∀ c, t.client c = .idle) ∧ t.processed = (s.queue.offered : Multiset Nat) := by
  obtain ⟨s, hs, hp⟩ := exists_reach step Pool.init
    [.work 0 .zero, .work 1 .zero, .work 0 .zero, .work 1 .zero, .queue (.run (.inl 0) none),
      .pause 0, .client 0, .client 0, .client 0, .addData 1 7]
    (fun s : Pool 2 (Fin 2) Nat => decide ((s.client 1 = .addData ∧
      (∀ w, s.waitsig w = true ∧ s.worker w = .take) ∧ s.calls = [] ∧ s.queue.offered = [7]) ∧
      s.once = .fresh ∧ s.running = true))
    (by decide)
  obtain ⟨shown, fresh, running⟩ := of_decide_eq_true hp
  exact ⟨s, shown, processes_all hs fresh running⟩

end Leano.ThreadPool
