import Leano.ThreadPool.Shutdown

/-! The part of the pool that pausing is about: the flags, the pending signals, the rounds of
`Pause` and `Continues` under way, and the workers on their way to `Take`. -/

universe u v

namespace Leano.ThreadPool

open Leano.Lib

variable {n : Nat} {C : Type v} {T : Type u}

def ClientPc.inRound : ClientPc n → Bool
  | .pause _ => true
  | .kill _ => true
  | .clear _ _ => true
  | _ => false

def ClientPc.round (pc : ClientPc n) : Option (ClientPc n) := if pc.inRound then some pc else none

def ClientPc.toWrite (flag : Bool) : ClientPc n → Option (List (Fin n))
  | .pause rest => if flag then some rest else none
  | .kill rest => if flag then none else some rest
  | .clear w rest => if flag then none else some (w :: rest)
  | _ => none

def ClientPc.writes : ClientPc n → Option (Fin n × Bool)
  | .pause (w :: _) => some (w, true)
  | .clear w _ => some (w, false)
  | _ => none

def ClientPc.kills : ClientPc n → Option (Fin n)
  | .kill (w :: _) => some w
  | _ => none

def WorkerPc.before (pc : WorkerPc T) : Bool :=
  match pc with
  | .exited => true
  | pc => pc.outside

namespace Pool

def isParked (s : Pool n C T) (w : Fin n) : Bool :=
  match s.worker w with
  | .sigwait => !s.sigusr1 w
  | _ => false

def ToWrite (s : Pool n C T) (flag : Bool) (w : Fin n) : Prop :=
  ∀ c, ∀ rest ∈ (s.client c).toWrite flag, w ∈ rest

end Pool

instance [Fintype C] (s : Pool n C T) (flag : Bool) (w : Fin n) : Decidable (s.ToWrite flag w) :=
  inferInstanceAs (Decidable (∀ c, ∀ rest ∈ (s.client c).toWrite flag, w ∈ rest))

theorem toWrite_of_out {pc : ClientPc n} (h : pc.inRound = false) (flag : Bool) :
    pc.toWrite flag = none := by
  cases pc <;> first | rfl | cases h

theorem toWrite_of_round {pc pc' : ClientPc n} (h : pc.round = pc'.round) (flag : Bool) :
    pc.toWrite flag = pc'.toWrite flag := by
  have of_round : ∀ pc : ClientPc n,
      pc.toWrite flag = pc.round.bind fun pc => pc.toWrite flag := by
    intro pc
    cases pc <;> rfl
  rw [of_round, h, ← of_round]

theorem isParked_iff {s : Pool n C T} {w : Fin n} :
    s.isParked w = true ↔ s.worker w = .sigwait ∧ s.sigusr1 w = false := by
  unfold Pool.isParked
  cases s.worker w <;> simp

theorem View.Step.calls {ok : Prop} {v v' : View T} (hs : View.Step ok v v')
    (h : v.pc.before = true) : v'.calls = v.calls := by
  cases hs with
  | process hp => rw [hp] at h; cases h
  | _ => rfl

def Act.OfClient (P : C → Prop) : Act n C T → Prop
  | .client c => P c
  | _ => True

def Act.OfWorker (P : Fin n → Prop) : Act n C T → Prop
  | .work w _ => P w
  | _ => True

instance (P : C → Prop) [DecidablePred P] : (a : Act n C T) → Decidable (a.OfClient P)
  | .client c => inferInstanceAs (Decidable (P c))
  | .addData _ _ => .isTrue trivial
  | .pause _ => .isTrue trivial
  | .continues _ => .isTrue trivial
  | .stop _ => .isTrue trivial
  | .work _ _ => .isTrue trivial
  | .queue _ => .isTrue trivial

instance (P : Fin n → Prop) [DecidablePred P] : (a : Act n C T) → Decidable (a.OfWorker P)
  | .work w _ => inferInstanceAs (Decidable (P w))
  | .addData _ _ => .isTrue trivial
  | .pause _ => .isTrue trivial
  | .continues _ => .isTrue trivial
  | .stop _ => .isTrue trivial
  | .client _ => .isTrue trivial
  | .queue _ => .isTrue trivial

def Quiet (s : Pool n C T) : Act n C T → Prop
  | .pause _ => False
  | .continues _ => False
  | .client c => (s.client c).inRound = false
  | .work w _ => s.worker w ≠ .check
  | _ => True

variable [DecidableEq C]

inductive Signals (s : Pool n C T) : Act n C T → Pool n C T → Prop
  | pause {c} : s.client c = .idle → Signals s (.pause c) (s.setClient c (.pause s.threadgroup))
  | pauseNext {c w rest} : s.client c = .pause (w :: rest) →
      Signals s (.client c)
        { s.setClient c (.pause rest) with waitsig := Function.update s.waitsig w true }
  | pauseDone {c} : s.client c = .pause [] → Signals s (.client c) (s.setClient c .idle)
  | continues {c} : s.client c = .idle →
      Signals s (.continues c) (s.setClient c (.kill s.threadgroup))
  | killNext {c w rest} : s.client c = .kill (w :: rest) →
      Signals s (.client c)
        { s.setClient c (.clear w rest) with sigusr1 := Function.update s.sigusr1 w true }
  | clear {c w rest} : s.client c = .clear w rest →
      Signals s (.client c)
        { s.setClient c (.kill rest) with waitsig := Function.update s.waitsig w false }
  | killDone {c} : s.client c = .kill [] → Signals s (.client c) (s.setClient c .idle)
  | check {w ret} : s.worker w = .check → s.waitsig w = true →
      Signals s (.work w ret) (s.setWorker w .sigwait)
  | enterTake {w ret q} : s.worker w = .check → s.waitsig w = false →
      Signals s (.work w ret) { s.setWorker w .take with queue := q }
  | signalled {w q} : s.worker w = .sigwait → s.sigusr1 w = true →
      Signals s (.work w .zero)
        { s.setWorker w .take with queue := q, sigusr1 := Function.update s.sigusr1 w false }
  | other {a s'} (quiet : Quiet s a)
      (flags : s'.waitsig = s.waitsig) (pending : s'.sigusr1 = s.sigusr1)
      (rounds : ∀ c, (s'.client c).round = (s.client c).round)
      (before : ∀ w, (s.worker w).before = true → (s'.worker w).before = true)
      (sleeps : ∀ w, s'.worker w = .sigwait → s.worker w = .sigwait) : Signals s a s'

namespace Signals

variable {s s' : Pool n C T} {a : Act n C T} {c : C} {w : Fin n} {ret : SigwaitRet}

theorem rounds_update {pc : ClientPc n} (was : (s.client c).inRound = false)
    (now : pc.inRound = false) (d : C) :
    (Function.update s.client c pc d).round = (s.client d).round := by
  refine apply_update_eq ?_ d
  simp only [ClientPc.round, was, now, Bool.false_eq_true, if_false]

theorem ofClient {pc : ClientPc n} (quiet : Quiet s a) (was : (s.client c).inRound = false)
    (now : pc.inRound = false) (flags : s'.waitsig = s.waitsig) (pending : s'.sigusr1 = s.sigusr1)
    (client : s'.client = Function.update s.client c pc) (worker : s'.worker = s.worker) :
    Signals s a s' := by
  refine .other quiet flags pending ?_ ?_ ?_
  · rw [client]
    exact rounds_update was now
  · rw [worker]
    exact fun _ h => h
  · rw [worker]
    exact fun _ h => h

theorem ofWorker {pc : WorkerPc T} (at' : s.worker w ≠ .check)
    (flags : s'.waitsig = s.waitsig) (pending : s'.sigusr1 = s.sigusr1)
    (client : s'.client = s.client) (worker : s'.worker = Function.update s.worker w pc)
    (before : (s.worker w).before = true → pc.before = true) (sleeps : pc ≠ .sigwait) :
    Signals s (.work w ret) s' := by
  refine .other at' flags pending ?_ ?_ ?_
  · rw [client]
    exact fun _ => rfl
  · intro u hu
    rw [worker]
    by_cases same : u = w
    · subst same
      rw [Function.update_self]
      exact before hu
    · rwa [Function.update_of_ne same]
  · intro u hu
    rw [worker] at hu
    by_cases same : u = w
    · subst same
      rw [Function.update_self] at hu
      exact absurd hu sleeps
    · rwa [Function.update_of_ne same] at hu

end Signals

variable [Fintype C] {s s' : Pool n C T} {a : Act n C T}

theorem signals_of_step (hs : Step s a s') : Signals s a s' := by
  cases hs with
  | pause hc => exact .pause hc
  | pauseNext hc => exact .pauseNext hc
  | pauseDone hc => exact .pauseDone hc
  | continues hc => exact .continues hc
  | killNext hc => exact .killNext hc
  | clear hc => exact .clear hc
  | killDone hc => exact .killDone hc
  | check hw flag => exact .check hw flag
  | enterTake hw flag => exact .enterTake hw flag
  | signalled hw pending => exact .signalled hw pending
  | addData hc => exact .ofClient trivial (by rw [hc]; rfl) rfl rfl rfl rfl rfl
  | stop hc => exact .ofClient trivial (by rw [hc]; rfl) rfl rfl rfl rfl rfl
  | stopAgain hc => exact .ofClient trivial (by rw [hc]; rfl) rfl rfl rfl rfl rfl
  | addDataDone hc =>
    have out := (congrArg ClientPc.inRound hc).trans rfl
    exact .ofClient out out rfl rfl rfl rfl rfl
  | stopQueue hc =>
    have out := (congrArg ClientPc.inRound hc).trans rfl
    exact .ofClient out out rfl rfl rfl rfl rfl
  | stopFlag hc =>
    have out := (congrArg ClientPc.inRound hc).trans rfl
    exact .ofClient out out rfl rfl rfl rfl rfl
  | joinDone hc =>
    have out := (congrArg ClientPc.inRound hc).trans rfl
    exact .ofClient out out rfl rfl rfl rfl rfl
  | joinNext hc =>
    have out := (congrArg ClientPc.inRound hc).trans rfl
    exact .ofClient out out rfl rfl rfl rfl rfl
  | stopWait hc =>
    have out := (congrArg ClientPc.inRound hc).trans rfl
    exact .ofClient out out rfl rfl rfl rfl rfl
  | loop hw =>
    refine .ofWorker (by rw [hw]; nofun) rfl rfl rfl rfl (fun _ => ?_) ?_
    · split <;> rfl
    · split <;> nofun
  | interrupted hw => exact .ofWorker (by rw [hw]; nofun) rfl rfl rfl rfl (fun _ => rfl) nofun
  | failed hw => exact .ofWorker (by rw [hw]; nofun) rfl rfl rfl rfl (fun _ => rfl) nofun
  | take hw => exact .ofWorker (by rw [hw]; nofun) rfl rfl rfl rfl (by rw [hw]; nofun) nofun
  | test hw => exact .ofWorker (by rw [hw]; nofun) rfl rfl rfl rfl (by rw [hw]; nofun) nofun
  | @drop w ret task hw =>
    cases task <;> exact .ofWorker (by rw [hw]; nofun) rfl rfl rfl rfl (fun _ => rfl) nofun
  | process hw => exact .ofWorker (by rw [hw]; nofun) rfl rfl rfl rfl (fun _ => rfl) nofun
  | queue => exact .other trivial rfl rfl (fun _ => rfl) (fun _ h => h) (fun _ h => h)

omit [Fintype C] [DecidableEq C] in
theorem worker_of_setWorker {w u : Fin n} {pc : WorkerPc T}
    (h : (s.setWorker u pc).worker w = .sigwait) (awake : pc ≠ .sigwait) :
    w ≠ u ∧ s.worker w = .sigwait := by
  by_cases same : w = u
  · subst same
    exact absurd ((Function.update_self ..).symm.trans h) awake
  · exact ⟨same, (Function.update_of_ne same _ _).symm.trans h⟩

omit [Fintype C] in
theorem sleeps_of_step (hs : Signals s a s') {w : Fin n} (h : s'.worker w = .sigwait) :
    s.worker w = .sigwait ∨ (s.worker w = .check ∧ ∃ ret, a = .work w ret) := by
  cases hs with
  | @check u ret hu =>
    by_cases same : w = u
    · subst same
      exact .inr ⟨hu, ret, rfl⟩
    · exact .inl ((Function.update_of_ne same _ _).symm.trans h)
  | enterTake => exact .inl (worker_of_setWorker h nofun).2
  | signalled => exact .inl (worker_of_setWorker h nofun).2
  | other _ _ _ _ _ still => exact .inl (still w h)
  | _ => exact .inl h

omit [Fintype C] in
theorem pending_of_step (hs : Signals s a s') {w : Fin n} (h : s'.sigusr1 w = true) :
    s.sigusr1 w = true ∨ ∃ c, a = .client c ∧ (s.client c).kills = some w := by
  cases hs with
  | @killNext c u rest hc =>
    by_cases same : w = u
    · subst same
      exact .inr ⟨c, rfl, by rw [hc]; rfl⟩
    · exact .inl ((Function.update_of_ne same _ _).symm.trans h)
  | @signalled u =>
    by_cases same : w = u
    · subst same
      cases (Function.update_self ..).symm.trans h
    · exact .inl ((Function.update_of_ne same _ _).symm.trans h)
  | other _ _ pending => exact .inl (pending ▸ h)
  | _ => exact .inl h

omit [Fintype C] in
theorem parked_of_step (hs : Signals s a s') {w : Fin n} (h : s'.isParked w = true) :
    s.isParked w = true ∨ (s.worker w = .check ∧ s.waitsig w = true ∧ s.sigusr1 w = false ∧
      ∃ ret, a = .work w ret) := by
  rw [isParked_iff] at h ⊢
  obtain ⟨sleeps, pending⟩ := h
  cases hs with
  | @killNext c u rest =>
    by_cases same : w = u
    · subst same
      cases (Function.update_self ..).symm.trans pending
    · exact .inl ⟨sleeps, (Function.update_of_ne same _ _).symm.trans pending⟩
  | @check u ret hw flag =>
    by_cases same : w = u
    · subst same
      exact .inr ⟨hw, flag, pending, ret, rfl⟩
    · exact .inl ⟨(Function.update_of_ne same _ _).symm.trans sleeps, pending⟩
  | enterTake => exact .inl ⟨(worker_of_setWorker sleeps nofun).2, pending⟩
  | signalled =>
    obtain ⟨other, sleeps⟩ := worker_of_setWorker sleeps nofun
    exact .inl ⟨sleeps, (Function.update_of_ne other _ _).symm.trans pending⟩
  | other _ _ same _ _ still => exact .inl ⟨still w sleeps, same ▸ pending⟩
  | _ => exact .inl ⟨sleeps, pending⟩

omit [Fintype C] in
theorem Pool.ToWrite.setClient {flag : Bool} {c : C} {w : Fin n} (h : s.ToWrite flag w)
    {pc : ClientPc n} (new : ∀ rest ∈ pc.toWrite flag, w ∈ rest)
    (client : s'.client = Function.update s.client c pc) : s'.ToWrite flag w := by
  rw [Pool.ToWrite, client]
  exact forall_update (Q := fun pc : ClientPc n => ∀ rest ∈ pc.toWrite flag, w ∈ rest) h new

omit [DecidableEq C] [Fintype C] in
theorem mem_threadgroup (h : Stopping s) (w : Fin n) :
    s.worker w = .exited ∨ w ∈ s.threadgroup := by
  cases h with
  | fresh _ group => exact .inr (group ▸ List.mem_finRange w)
  | active hs => exact .inr (hs.group ▸ List.mem_finRange w)
  | done _ _ exited => exact .inl (exited w)

def Ahead (s : Pool n C T) (flag returned : Bool) : Prop :=
  ∀ w, s.waitsig w = !flag → s.worker w = .exited ∨ (returned = false ∧ s.ToWrite flag w)

namespace Ahead

variable {flag returned returned' : Bool} {c : C} {w : Fin n}

omit [Fintype C] in
theorem move {pc : ClientPc n}
    (old : s.worker w = .exited ∨ (returned = false ∧ s.ToWrite flag w))
    (exits : s.worker w = .exited → s'.worker w = .exited)
    (client : s'.client = Function.update s.client c pc)
    (new : s.ToWrite flag w → ∀ rest ∈ pc.toWrite flag, w ∈ rest)
    (see : returned = false → returned' = false) :
    s'.worker w = .exited ∨ (returned' = false ∧ s'.ToWrite flag w) := by
  refine old.imp exits ?_
  rintro ⟨returned, ahead⟩
  exact ⟨see returned, ahead.setClient (new ahead) client⟩

omit [Fintype C] in
theorem step (h : Ahead s flag returned)
    (group : ∀ w, s.worker w = .exited ∨ w ∈ s.threadgroup)
    (exits : ∀ w, s.worker w = .exited → s'.worker w = .exited) (hs : Signals s a s')
    (back : ∀ c w, a = .client c → (s.client c).writes = some (w, !flag) →
      returned = false ∧ s.ToWrite flag w)
    (see : returned = false → (∀ c, a = .client c → (s.client c).toWrite flag ≠ some []) →
      returned' = false) : Ahead s' flag returned' := by
  intro w hw
  have going : ∀ {c pc}, a = .client c → s.client c = pc → pc.toWrite flag ≠ some [] →
      returned = false → returned' = false := by
    rintro c pc rfl rfl more ret
    refine see ret ?_
    rintro _ ⟨⟩
    exact more
  have called : (∀ c, a ≠ .client c) → returned = false → returned' = false :=
    fun other ret => see ret fun c hc => absurd hc (other c)
  cases hs with
  | pause =>
    rcases group w with gone | there
    · exact .inl (exits w gone)
    · refine move (h w hw) (exits w) rfl ?_ (called nofun)
      cases flag <;> rintro - _ ⟨⟩
      exact there
  | continues =>
    rcases group w with gone | there
    · exact .inl (exits w gone)
    · refine move (h w hw) (exits w) rfl ?_ (called nofun)
      cases flag <;> rintro - _ ⟨⟩
      exact there
  | @pauseNext c u rest hc =>
    cases flag with
    | false =>
      refine move ?_ (exits w) rfl (by rintro - _ ⟨⟩) (going rfl hc nofun)
      by_cases same : w = u
      · subst same
        exact .inr (back c w rfl (by rw [hc]; rfl))
      · exact h w ((Function.update_of_ne same _ _).symm.trans hw)
    | true =>
      by_cases same : w = u
      · subst same
        cases (Function.update_self ..).symm.trans hw
      · have old := h w ((Function.update_of_ne same _ _).symm.trans hw)
        refine move old (exits w) rfl ?_ (going rfl hc nofun)
        rintro ahead _ ⟨⟩
        have there := ahead c (u :: rest) (by rw [hc]; rfl)
        exact (List.mem_cons.mp there).resolve_left same
  | @clear c u rest hc =>
    cases flag with
    | false =>
      by_cases same : w = u
      · subst same
        cases (Function.update_self ..).symm.trans hw
      · have old := h w ((Function.update_of_ne same _ _).symm.trans hw)
        refine move old (exits w) rfl ?_ (going rfl hc nofun)
        rintro ahead _ ⟨⟩
        have there := ahead c (u :: rest) (by rw [hc]; rfl)
        exact (List.mem_cons.mp there).resolve_left same
    | true =>
      refine move ?_ (exits w) rfl (by rintro - _ ⟨⟩) (going rfl hc nofun)
      by_cases same : w = u
      · subst same
        exact .inr (back c w rfl (by rw [hc]; rfl))
      · exact h w ((Function.update_of_ne same _ _).symm.trans hw)
  | @pauseDone c hc =>
    cases flag with
    | false => exact move (h w hw) (exits w) rfl (by rintro - _ ⟨⟩) (going rfl hc nofun)
    | true =>
      rcases h w hw with gone | ⟨-, ahead⟩
      · exact .inl (exits w gone)
      · exact absurd (ahead c [] (by rw [hc]; rfl)) List.not_mem_nil
  | @killDone c hc =>
    cases flag with
    | false =>
      rcases h w hw with gone | ⟨-, ahead⟩
      · exact .inl (exits w gone)
      · exact absurd (ahead c [] (by rw [hc]; rfl)) List.not_mem_nil
    | true => exact move (h w hw) (exits w) rfl (by rintro - _ ⟨⟩) (going rfl hc nofun)
  | @killNext c u rest hc =>
    refine move (h w hw) (exits w) rfl ?_ (going rfl hc (by cases flag <;> nofun))
    cases flag <;> rintro ahead _ ⟨⟩
    exact ahead c (u :: rest) (by rw [hc]; rfl)
  | check => exact (h w hw).imp (exits w) (And.imp_left (called nofun))
  | enterTake => exact (h w hw).imp (exits w) (And.imp_left (called nofun))
  | signalled => exact (h w hw).imp (exits w) (And.imp_left (called nofun))
  | other quiet flags _ rounds =>
    rw [flags] at hw
    refine (h w hw).imp (exits w) ?_
    rintro ⟨ret, ahead⟩
    refine ⟨see ret ?_, ?_⟩
    · rintro c rfl
      change (s.client c).inRound = false at quiet
      rw [toWrite_of_out quiet]
      nofun
    · intro c
      rw [toWrite_of_round (rounds c)]
      exact ahead c

end Ahead

end Leano.ThreadPool
