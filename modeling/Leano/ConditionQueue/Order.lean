import Leano.ConditionQueue.Defs
import Leano.Lib.Channel
import Leano.Lib.Log
import Mathlib.Tactic.Abel

universe u v

namespace Leano.ConditionQueue

open Leano.Lib

variable {ι : Type v} {P : Type u}

def inHand : Phase (Op P) (Res P) → List (Option P)
  | .returned (.pop ptr true) => [ptr]
  | _ => []

def Remover.isClean : Remover ι → Bool
  | .clean _ => true
  | .pop _ => false

namespace State

def handedOut (s : State ι P) : List (Option P) := s.removed.map Prod.snd

def cleaned (s : State ι P) : List (Option P) :=
  (s.removed.filter fun e => e.1.isClean).map Prod.snd

end State

@[simp] theorem inHand_idle : inHand (.idle : Phase (Op P) (Res P)) = [] := rfl

@[simp] theorem inHand_pop (ptr : Option P) :
    inHand (.returned (.pop ptr true) : Phase (Op P) (Res P)) = [ptr] := rfl

theorem inHand_of_section {ph : Phase (Op P) (Res P)} {op : Op P} (h : ph.section? = some op) :
    inHand ph = [] := by
  cases ph with
  | returned r => cases h
  | _ => rfl

theorem inHand_of_not_pop {r : Res P} (h : ∀ ptr, r ≠ .pop ptr true) :
    inHand (.returned r : Phase (Op P) (Res P)) = [] := by
  cases r with
  | pop ptr removed =>
    cases removed with
    | false => rfl
    | true => exact absurd rfl (h ptr)
  | _ => rfl

def Represents (s : State ι P) (c : Channel (Option P)) : Prop :=
  c.Shows s.pushed s.handedOut s.q.dataqueue

theorem giveBack_popped [DecidableEq ι] (s : State ι P) (t : ι) (r : Res P) :
    s.giveBack t r = { s with
      popped := s.popped ++ (inHand (.returned r)).map fun ptr => (t, ptr) }.setThread t .idle := by
  cases r with
  | pop ptr removed => cases removed <;> simp [State.giveBack, inHand]
  | _ => simp [State.giveBack, inHand]

variable {s s' : State ι P}

theorem cleaned_append_clean (t : ι) (ptrs : List (Option P))
    (hr : s'.removed = s.removed ++ ptrs.map (fun ptr => (.clean t, ptr))) :
    s'.cleaned = s.cleaned ++ ptrs := by
  simp [State.cleaned, hr, List.filter_map, Function.comp_def, Remover.isClean]

variable [Fintype ι]

def State.held (s : State ι P) : Multiset (Option P) :=
  total (fun ph => (inHand ph : Multiset (Option P))) s.threads

theorem held_congr (hh : ∀ t, inHand (s'.threads t) = inHand (s.threads t)) : s'.held = s.held :=
  total_congr fun t => by rw [hh t]

variable [DecidableEq ι] {a : Act ι P}

theorem Represents.step {c : Channel (Option P)} (h : Represents s c) (hs : step s a = some s') :
    Represents s' c ∨ ∃ b c', c.step b = some c' ∧ Represents s' c' := by
  cases step_cases hs with
  | @ret t r =>
    left
    rw [giveBack_popped]
    exact h
  | push => exact .inr (h.send _)
  | pop _ _ hq =>
    right
    rw [Represents, hq, ← List.singleton_append] at h
    simpa [Represents, State.handedOut, State.popFront, State.setThread]
      using Channel.Shows.receive h
  | clean =>
    right
    rw [Represents, ← List.append_nil s.q.dataqueue] at h
    simpa [Represents, State.handedOut, State.clean, State.setThread, Function.comp_def]
      using Channel.Shows.receive h
  | _ => exact .inl h

theorem reach_represents (h : Reach step State.init s) :
    ∃ c, Reach Channel.step Channel.new c ∧ Represents s c :=
  h.simulate (R := Represents) Channel.Shows.new fun _ _ _ _ hR _ hs => hR.step hs

inductive Change (s s' : State ι P) : Prop
  | keep : s'.removed = s.removed → s'.popped = s.popped → s'.released = s.released →
      (∀ t, inHand (s'.threads t) = inHand (s.threads t)) → Change s s'
  | pop (t ptr) : inHand (s.threads t) = [] → s'.removed = s.removed ++ [(.pop t, ptr)] →
      s'.popped = s.popped → s'.released = s.released →
      s'.threads = Function.update s.threads t (.returned (.pop ptr true)) → Change s s'
  | clean (t) (ptrs : List (Option P)) :
      s'.removed = s.removed ++ ptrs.map (fun ptr => (.clean t, ptr)) → s'.popped = s.popped →
      s'.released = s.released ++ ptrs.filterMap id →
      (∀ t, inHand (s'.threads t) = inHand (s.threads t)) → Change s s'
  | giveBack (t) : s'.removed = s.removed →
      s'.popped = s.popped ++ (inHand (s.threads t)).map (fun ptr => (t, ptr)) →
      s'.released = s.released → s'.threads = Function.update s.threads t .idle → Change s s'

theorem change_of_step (hs : step s a = some s') : Change s s' := by
  cases step_cases hs with
  | call ht => exact .keep rfl rfl rfl (apply_update_eq (by rw [ht]; rfl))
  | spurious ht => exact .keep rfl rfl rfl (apply_update_eq (by rw [ht]; rfl))
  | timeout ht =>
    refine .keep rfl rfl rfl (apply_update_eq ?_)
    obtain ht | ht := ht <;> rw [ht] <;> rfl
  | @ret t r ht =>
    rw [giveBack_popped]
    exact .giveBack t rfl (by rw [ht]; rfl) rfl rfl
  | push hop => exact .keep rfl rfl rfl (apply_update_eq (inHand_of_section hop).symm)
  | @signal t w th hop hn =>
    have same := hn.apply_eq (f := inHand) fun _ => rfl
    have left : inHand (.returned .unit : Phase (Op P) (Res P)) = inHand (th t) := by
      rw [same, inHand_of_section hop]
      rfl
    exact .keep rfl rfl rfl fun u => (apply_update_eq left u).trans (same u)
  | @pop t w op ptr rest n hop => exact .pop t ptr (inHand_of_section hop) rfl rfl rfl rfl
  | wait hop => exact .keep rfl rfl rfl (apply_update_eq (inHand_of_section hop).symm)
  | @clean t w op hop =>
    exact .clean t s.q.dataqueue rfl rfl rfl (apply_update_eq (inHand_of_section hop).symm)
  | @broadcast t w hop =>
    have same := apply_notifyAll Op.waits s.threads (f := inHand) fun _ => rfl
    have left : inHand (.ready .cleanLocked : Phase (Op P) (Res P)) =
        inHand (notifyAll Op.waits s.threads t) := by
      rw [same, inHand_of_section hop]
      rfl
    exact .keep rfl rfl rfl fun u => (apply_update_eq left u).trans (same u)
  | other hop _ _ hr =>
    refine .keep rfl rfl rfl (apply_update_eq ?_)
    rw [inHand_of_section hop, inHand_of_not_pop hr]

def Returned (s : State ι P) : Prop :=
  ∀ t, logOf s.removed (.pop t) = logOf s.popped t ++ inHand (s.threads t)

theorem Returned.step (hI : Returned s) (hs : step s a = some s') : Returned s' := by
  intro u
  cases change_of_step hs with
  | keep hr hp _ hh => rw [hr, hp, hh, hI u]
  | pop t ptr empty hr hp _ hth =>
    rw [hr, hp, hth, logOf_append, hI u]
    by_cases hu : u = t
    · subst hu
      rw [empty, Function.update_self, logOf_single_self, inHand_pop, List.append_nil]
    · have other : (Remover.pop t : Remover ι) ≠ .pop u := by simpa using Ne.symm hu
      rw [Function.update_of_ne hu, logOf_single_of_ne other, List.append_nil]
  | clean t ptrs hr hp _ hh =>
    have other : (Remover.clean t : Remover ι) ≠ .pop u := by simp
    rw [hr, hp, hh, logOf_append, logOf_map_of_ne other, List.append_nil, hI u]
  | giveBack t hr hp _ hth =>
    rw [hr, hp, hth, hI u, logOf_append]
    by_cases hu : u = t
    · subst hu
      rw [logOf_map_self, Function.update_self, inHand_idle, List.append_nil]
    · rw [logOf_map_of_ne (Ne.symm hu), Function.update_of_ne hu, List.append_nil]

theorem held_update {t : ι} {ph : Phase (Op P) (Res P)}
    (hth : s'.threads = Function.update s.threads t ph) :
    s'.held + inHand (s.threads t) = s.held + inHand ph := by
  rw [State.held, hth]
  exact total_update (fun ph => (inHand ph : Multiset (Option P))) s.threads t ph

/-- Every occurrence removed is accounted for once: returned, still in hand, or cleaned. -/
structure Accounted (s : State ι P) : Prop where
  occurrences : (s.handedOut : Multiset (Option P)) =
    (s.popped.map Prod.snd : List (Option P)) + s.held + (s.cleaned : List (Option P))
  released : s.released = s.cleaned.filterMap id

theorem Accounted.step (hI : Accounted s) (hs : step s a = some s') : Accounted s' := by
  obtain ⟨hocc, hrel⟩ := hI
  cases change_of_step hs with
  | keep hr hp hl hh =>
    have hc : s'.cleaned = s.cleaned := by rw [State.cleaned, State.cleaned, hr]
    refine ⟨?_, by rw [hl, hc, hrel]⟩
    rw [State.handedOut, hr, hp, hc, held_congr hh]
    exact hocc
  | pop t ptr empty hr hp hl hth =>
    have hc : s'.cleaned = s.cleaned := by simp [State.cleaned, hr, Remover.isClean]
    refine ⟨?_, by rw [hl, hc, hrel]⟩
    have moved := held_update hth
    rw [empty, Multiset.coe_nil, add_zero, inHand_pop] at moved
    have hm : s'.handedOut = s.handedOut ++ [ptr] := by simp [State.handedOut, hr]
    rw [hm, hp, hc, moved, ← Multiset.coe_add, hocc]
    abel
  | clean t ptrs hr hp hl hh =>
    have hc := cleaned_append_clean t ptrs hr
    refine ⟨?_, by rw [hl, hc, hrel, List.filterMap_append]⟩
    have hm : s'.handedOut = s.handedOut ++ ptrs := by
      simp [State.handedOut, hr, Function.comp_def]
    rw [hm, hp, hc, held_congr hh, ← Multiset.coe_add, ← Multiset.coe_add, hocc, add_assoc]
  | giveBack t hr hp hl hth =>
    have hc : s'.cleaned = s.cleaned := by rw [State.cleaned, State.cleaned, hr]
    refine ⟨?_, by rw [hl, hc, hrel]⟩
    have moved := held_update hth
    rw [inHand_idle, Multiset.coe_nil, add_zero] at moved
    have hm : s'.handedOut = s.handedOut := by rw [State.handedOut, State.handedOut, hr]
    have hb : s'.popped.map Prod.snd = s.popped.map Prod.snd ++ inHand (s.threads t) := by
      simp [hp, Function.comp_def]
    rw [hm, hc, hb, hocc, ← moved, ← Multiset.coe_add]
    abel

theorem reach_returned (h : Reach step State.init s) : Returned s :=
  h.invariant (I := Returned) (fun _ => rfl) fun _ _ _ _ hI _ hs => hI.step hs

theorem reach_accounted (h : Reach step State.init s) : Accounted s := by
  refine h.invariant (I := Accounted) ⟨?_, rfl⟩ fun _ _ _ _ hI _ hs => hI.step hs
  have none : (State.init : State ι P).held = 0 := total_eq_zero fun _ => rfl
  rw [none]
  rfl

/-- Every pointer leaves once and in order, for any number of threads and any interleaving. -/
theorem hands_out_once (h : Reach step State.init s) :
    s.pushed = s.handedOut ++ s.q.dataqueue ∧
    (∀ t, logOf s.removed (.pop t) = logOf s.popped t ++ inHand (s.threads t)) ∧
    (s.handedOut : Multiset (Option P)) =
      (s.popped.map Prod.snd : List (Option P)) + s.held + (s.cleaned : List (Option P)) ∧
    s.released = s.cleaned.filterMap id := by
  obtain ⟨c, -, hc⟩ := reach_represents h
  have hA := reach_accounted h
  exact ⟨hc.law, reach_returned h, hA.occurrences, hA.released⟩

theorem hands_out_once_of_two :
    ∃ s : State (Fin 2) Nat, (s.popped = [(1, some 7)] ∧ s.released = [8]) ∧
      s.pushed = s.handedOut ++ s.q.dataqueue ∧
      (∀ t, logOf s.removed (.pop t) = logOf s.popped t ++ inHand (s.threads t)) ∧
      (s.handedOut : Multiset (Option Nat)) =
        (s.popped.map Prod.snd : List (Option Nat)) + s.held + (s.cleaned : List (Option Nat)) ∧
      s.released = s.cleaned.filterMap id := by
  obtain ⟨s, hs, hp⟩ := exists_reach step State.init
    [.call 1 .waitPop, .run 1 none, .call 0 (.push (some 7)), .run 0 none, .run 0 (some 1),
      .ret 0, .run 1 none, .ret 1, .call 0 (.push (some 8)), .run 0 none, .run 0 none, .ret 0,
      .call 1 .cleanQueue, .run 1 none]
    (fun s : State (Fin 2) Nat => decide (s.popped = [(1, some 7)] ∧ s.released = [8]))
    (by decide)
  exact ⟨s, of_decide_eq_true hp, hands_out_once hs⟩

end Leano.ConditionQueue
