import Leano.ConditionQueue.Order

universe u v

namespace Leano.ConditionQueue

open Leano.Lib

variable {ι : Type v} {P : Type u} [Fintype ι] {s s' : State ι P} {a : Act ι P}

def State.waiting (s : State ι P) : Nat := count (Phase.isBlocked Op.waits) s.threads

def State.awake (s : State ι P) : Nat := count (Phase.isWoken Op.waits) s.threads

def State.signalling (s : State ι P) : Nat := count (Phase.isReady Op.signals) s.threads

def Covered (s : State ι P) : Prop :=
  0 < s.waiting → s.q.dataqueue.length ≤ s.awake + s.signalling

def Act.isUntimed : Act ι P → Bool
  | .call _ (.waitTimeoutPop _) => false
  | .timeout _ => false
  | _ => true

theorem Covered.mono (hI : Covered s) (shorter : s'.q.dataqueue.length ≤ s.q.dataqueue.length)
    (fewer : s'.waiting ≤ s.waiting)
    (more : s.awake + s.signalling ≤ s'.awake + s'.signalling) : Covered s' := by
  intro hw
  have := hI (hw.trans_le fewer)
  omega

theorem Covered.empty (hq : s.q.dataqueue = []) : Covered s := by
  intro _
  rw [hq]
  exact Nat.zero_le _

variable [DecidableEq ι]

theorem counts_setThread (s : State ι P) (t : ι) (ph : Phase (Op P) (Res P)) :
    (s.setThread t ph).waiting + ((s.threads t).isBlocked Op.waits).toNat =
      s.waiting + (ph.isBlocked Op.waits).toNat ∧
    (s.setThread t ph).awake + ((s.threads t).isWoken Op.waits).toNat =
      s.awake + (ph.isWoken Op.waits).toNat ∧
    (s.setThread t ph).signalling + ((s.threads t).isReady Op.signals).toNat =
      s.signalling + (ph.isReady Op.signals).toNat :=
  ⟨count_update _ _ _ _, count_update _ _ _ _, count_update _ _ _ _⟩

theorem counts_section {t : ι} {op : Op P} (hs : (s.threads t).section? = some op)
    (ph : Phase (Op P) (Res P)) :
    (s.setThread t ph).waiting = s.waiting + (ph.isBlocked Op.waits).toNat ∧
    s.awake + (ph.isWoken Op.waits).toNat ≤ (s.setThread t ph).awake + op.waits.toNat ∧
    s.signalling + (ph.isReady Op.signals).toNat ≤
      (s.setThread t ph).signalling + op.signals.toNat := by
  have h := counts_setThread s t ph
  have woken := Phase.isWoken_of_section Op.waits hs
  have ready := Phase.isReady_of_section Op.signals hs
  rw [Phase.isBlocked_of_section Op.waits hs, Bool.toNat_false] at h
  omega

theorem Covered.push {t : ι} {data : Option P} (hI : Covered s)
    (hs : (s.threads t).section? = some (.push data)) : Covered (s.push t data) := by
  have h := counts_section hs (.ready .signal)
  simp only [Phase.isBlocked, Phase.isWoken, Phase.isReady, Op.waits, Op.signals, Bool.toNat_false,
    Bool.toNat_true] at h
  intro hw
  have hlen : (s.push t data).q.dataqueue.length = s.q.dataqueue.length + 1 := by
    simp [State.push, State.setThread]
  have hc := hI (hw.trans_le h.1.le)
  change _ ≤ (s.setThread t (.ready .signal)).awake + (s.setThread t (.ready .signal)).signalling
  omega

theorem Covered.signal {t : ι} {th : ι → Phase (Op P) (Res P)} (hI : Covered s)
    (hs : (s.threads t).section? = some .signal) (hn : Notified Op.waits s.threads th) :
    Covered ({ s with threads := th }.setThread t (.returned .unit)) := by
  have hsame : th t = s.threads t := by
    cases hn with
    | @woke u op hu _ =>
      rw [Function.update_of_ne]
      rintro rfl
      rw [hu] at hs
      cases hs
    | nobody => rfl
  have h := counts_section (s := { s with threads := th }) (hsame ▸ hs) (.returned .unit)
  have hr : State.signalling { s with threads := th } = s.signalling := hn.counts_ready _
  simp only [Phase.isBlocked, Phase.isWoken, Phase.isReady, Op.waits, Op.signals, Bool.toNat_false,
    Bool.toNat_true] at h
  intro hw
  change s.q.dataqueue.length ≤ _
  obtain ⟨hb, ha⟩ | ⟨rfl, hb⟩ := hn.counts
  · have hb : State.waiting { s with threads := th } + 1 = s.waiting := hb
    have ha : State.awake { s with threads := th } = s.awake + 1 := ha
    have hc := hI (by omega)
    omega
  · rw [h.1] at hw
    exact absurd hb hw.ne'

theorem Covered.pop {t : ι} {op : Op P} {ptr : Option P} {rest : List (Option P)} {n : UInt32}
    (hI : Covered s) (hs : (s.threads t).section? = some op) (hop : op.signals = false)
    (hq : s.q.dataqueue = ptr :: rest) : Covered (s.popFront t ptr rest n) := by
  have h := counts_section hs (.returned (.pop ptr true))
  have one := Bool.toNat_le op.waits
  simp only [Phase.isBlocked, Phase.isWoken, Phase.isReady, hop, Bool.toNat_false] at h
  intro hw
  have hc := hI (hw.trans_le h.1.le)
  rw [hq, List.length_cons] at hc
  change rest.length ≤ (s.setThread t (.returned (.pop ptr true))).awake +
    (s.setThread t (.returned (.pop ptr true))).signalling
  omega

theorem Covered.broadcast (s : State ι P) (t : ι) :
    Covered ({ s with threads := notifyAll Op.waits s.threads }.setThread t
      (.ready .cleanLocked)) := by
  have h := counts_setThread { s with threads := notifyAll Op.waits s.threads } t
    (.ready .cleanLocked)
  have none : State.waiting { s with threads := notifyAll Op.waits s.threads } = 0 :=
    notifyAll_blocked
  simp only [Phase.isBlocked, Bool.toNat_false] at h
  intro hw
  omega

theorem Covered.step (hI : Covered s) (untimed : a.isUntimed = true) (hs : step s a = some s') :
    Covered s' := by
  cases step_cases hs with
  | @call t op ht hop =>
    have h := counts_setThread s t (.ready op)
    simp only [ht, Phase.isBlocked, Phase.isWoken, Phase.isReady, Bool.toNat_false] at h
    exact hI.mono le_rfl (by omega) (by omega)
  | @spurious t op ht =>
    have h := counts_setThread s t (.woken op)
    simp only [ht, Phase.isBlocked, Phase.isWoken, Phase.isReady, Bool.toNat_false] at h
    exact hI.mono le_rfl (by omega) (by omega)
  | timeout => cases untimed
  | @ret t r ht =>
    rw [giveBack_popped]
    have h := counts_setThread s t .idle
    simp only [ht, Phase.isBlocked, Phase.isWoken, Phase.isReady, Bool.toNat_false] at h
    exact hI.mono le_rfl h.1.le (Nat.add_le_add h.2.1.ge h.2.2.ge)
  | push hop => exact hI.push hop
  | signal hop hn => exact hI.signal hop hn
  | @pop t w op ptr rest n hop hn hq =>
    exact hI.pop hop (by cases op <;> first | rfl | cases hn) hq
  | wait _ _ hq => exact .empty hq
  | clean => exact .empty rfl
  | broadcast => exact .broadcast s _
  | @other t w op used r hop hw hsig _ =>
    have h := counts_section hop (.returned r)
    simp only [Phase.isBlocked, Phase.isWoken, Phase.isReady, hw, hsig, Bool.toNat_false] at h
    exact hI.mono le_rfl h.1.le (Nat.add_le_add h.2.1 h.2.2)

theorem reach_covered (h : ReachIf step (fun _ a => a.isUntimed = true) State.init s) :
    Covered s :=
  h.invariant (I := Covered) (Covered.empty rfl) fun _ _ _ _ hI untimed hs => hI.step untimed hs

/-- No wake-up is lost: beside a thread blocked in `wait_pop` every queued element has a woken
waiter or a signal still to come. -/
theorem no_lost_wakeup (h : ReachIf step (fun _ a => a.isUntimed = true) State.init s) {t : ι}
    (ht : s.threads t = .blocked .waitPop) :
    s.q.dataqueue.length ≤ s.awake + s.signalling := by
  apply reach_covered h
  apply count_pos.mpr
  exact ⟨t, by rw [ht]; rfl⟩

theorem no_lost_wakeup_of_three :
    ∃ s : State (Fin 3) Nat, s.q.dataqueue = [some 7] ∧
      s.q.dataqueue.length ≤ s.awake + s.signalling := by
  obtain ⟨s, hs, hp⟩ := exists_reachIf step (fun _ a => a.isUntimed = true) State.init
    [.call 0 .waitPop, .run 0 none, .call 1 .waitPop, .run 1 none, .call 2 (.push (some 7)),
      .run 2 none]
    (fun s : State (Fin 3) Nat =>
      decide (s.q.dataqueue = [some 7] ∧ s.threads 0 = .blocked .waitPop)) (by decide)
  have hp := of_decide_eq_true hp
  exact ⟨s, hp.1, no_lost_wakeup hs hp.2⟩

end Leano.ConditionQueue
