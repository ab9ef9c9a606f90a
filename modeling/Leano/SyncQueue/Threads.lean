import Leano.SyncQueue.Defs
import Leano.Lib.Log

universe u v

namespace Leano.SyncQueue

open Leano.Lib

variable {ι : Type v} {T : Type u}

def inHand : Phase (Op T) (Res T) → List T
  | .returned (.take (some x)) => [x]
  | .returned (.takeList (some xs)) => xs
  | _ => []

theorem inHand_of_section {ph : Phase (Op T) (Res T)} {op : Op T} (h : ph.section? = some op) :
    inHand ph = [] := by
  cases ph with
  | returned r => cases h
  | _ => rfl

inductive Evolves : Phase (Op T) (Res T) → Phase (Op T) (Res T) → List T → Prop
  | same {ph} : Evolves ph ph []
  | wake {op} : Evolves (.blocked op) (.woken op) []
  | block {ph op} : ph.section? = some op → Evolves ph (.blocked op) []
  | put {ph x} : ph.section? = some (.put x) → Evolves ph (.returned .put) []
  | take {ph x} : ph.section? = some .take → Evolves ph (.returned (.take (some x))) [x]
  | takeList {ph xs} : ph.section? = some .takeList →
      Evolves ph (.returned (.takeList (some xs))) xs
  | stopped {ph op r} : ph.section? = some op → op.stopped? = some r → Evolves ph (.returned r) []
  | stop {ph} : ph.section? = some .stop → Evolves ph (.ready .stopNotFull) []
  | stopNotFull {ph} : ph.section? = some .stopNotFull → Evolves ph (.ready .stopNotEmpty) []
  | stopNotEmpty {ph} : ph.section? = some .stopNotEmpty → Evolves ph (.returned .stop) []

def InTake (ph : Phase (Op T) (Res T)) : Prop :=
  ph.op? = some .take ∨ ∃ r, ph = .returned (.take r)

def OutOfTake (ph : Phase (Op T) (Res T)) : Prop :=
  ph.op? ≠ some .take ∧ ph.op? ≠ some .takeList

theorem inHand_length_of_inTake {ph : Phase (Op T) (Res T)} (h : InTake ph) :
    (inHand ph).length ≤ 1 := by
  rcases h with hop | ⟨r, rfl⟩
  · cases ph with
    | returned r => cases hop
    | _ => exact Nat.zero_le _
  · cases r with
    | none => exact Nat.zero_le _
    | some x => exact le_rfl

namespace Evolves

variable {ph ph' : Phase (Op T) (Res T)} {gained : List T}

theorem inHand_eq (h : Evolves ph ph' gained) : inHand ph' = inHand ph ++ gained := by
  cases h with
  | same => simp
  | wake => rfl
  | stopped hs hr =>
    rename_i op r
    rw [inHand_of_section hs]
    cases op <;> cases hr <;> rfl
  | _ hs =>
    rw [inHand_of_section hs]
    rfl

theorem idle (h : Evolves ph ph' gained) (hi : ph = .idle) : ph' = .idle ∧ gained = [] := by
  cases h with
  | same => exact ⟨hi, rfl⟩
  | wake => cases hi
  | _ hs => cases hi ▸ hs

theorem inTake (h : Evolves ph ph' gained) (ht : InTake ph) : InTake ph' := by
  have op_of : ∀ {op}, ph.section? = some op → op = .take := by
    intro op hs
    rcases ht with hop | ⟨r, rfl⟩
    · rw [Phase.op?_of_section hs] at hop
      exact Option.some.inj hop
    · cases hs
  cases h with
  | same => exact ht
  | wake => exact ht.imp_right fun ⟨_, hr⟩ => by cases hr
  | block hs =>
    cases op_of hs
    exact .inl rfl
  | take => exact .inr ⟨_, rfl⟩
  | stopped hs hr =>
    cases op_of hs
    cases hr
    exact .inr ⟨_, rfl⟩
  | _ hs => cases op_of hs

theorem outOfTake (h : Evolves ph ph' gained) (ho : OutOfTake ph) :
    OutOfTake ph' ∧ gained = [] := by
  have section_ne : ph.section? ≠ some .take ∧ ph.section? ≠ some .takeList :=
    ⟨fun hs => ho.1 (Phase.op?_of_section hs), fun hs => ho.2 (Phase.op?_of_section hs)⟩
  cases h with
  | same => exact ⟨ho, rfl⟩
  | wake => exact ⟨ho, rfl⟩
  | block hs =>
    refine ⟨?_, rfl⟩
    simpa [OutOfTake, Phase.op?, hs] using section_ne
  | take hs => exact absurd hs section_ne.1
  | takeList hs => exact absurd hs section_ne.2
  | _ => exact ⟨by simp [OutOfTake, Phase.op?], rfl⟩

end Evolves

section

variable [DecidableEq ι] {on : Op T → Bool} {th th' : Threads ι T} {t : ι}
  {ph : Phase (Op T) (Res T)} {gained : List T}

theorem Evolves.update (h : Evolves (th t) ph gained) (u : ι) :
    Evolves (th u) (Function.update th t ph u) (if t = u then gained else []) := by
  by_cases hu : t = u
  · subst hu
    simpa using h
  · rw [Function.update_of_ne (Ne.symm hu), if_neg hu]
    exact .same

theorem Evolves.notified {r : Res T} (h : Evolves (th t) (.returned r) gained)
    (hn : Notified on (Function.update th t (.returned r)) th') (u : ι) :
    Evolves (th u) (th' u) (if t = u then gained else []) := by
  have before := h.update u
  rcases hn.at u with same | ⟨op, hb, hw⟩
  · rwa [same]
  · by_cases hu : t = u
    · subst hu
      rw [Function.update_self] at hb
      cases hb
    · rw [Function.update_of_ne (Ne.symm hu)] at hb
      rw [if_neg hu, hb, hw]
      exact .wake

theorem Evolves.notifiedAll (h : Evolves (th t) ph []) (u : ι) :
    Evolves (th u) (Function.update (notifyAll on th) t ph u) [] := by
  by_cases hu : t = u
  · subst hu
    simpa using h
  · rw [Function.update_of_ne (Ne.symm hu)]
    rcases notifyAll_at on th u with same | ⟨op, hb, hw⟩
    · rw [same]
      exact .same
    · rw [hb, hw]
      exact .wake

end

section

variable [DecidableEq ι] {s s' : State ι T} {a : Act ι T}

omit [DecidableEq ι] in
@[simp] theorem offer_taken (s : State ι T) (op : Op T) : (s.offer op).taken = s.taken := by
  cases op <;> rfl

omit [DecidableEq ι] in
@[simp] theorem offer_threads (s : State ι T) (op : Op T) :
    (s.offer op).threads = s.threads := by
  cases op <;> rfl

theorem evolves_of_step (hs : Step s a s') (inner : a.isInner = true) (u : ι) :
    ∃ gained, Evolves (s.threads u) (s'.threads u) gained ∧
      logOf s'.taken u = logOf s.taken u ++ gained := by
  have gains : ∀ (t : ι) (xs : List T), logOf (s.taken ++ xs.map fun x => (t, x)) u =
      logOf s.taken u ++ if t = u then xs else [] := by
    intro t xs
    split
    case isTrue h => rw [logOf_append, h, logOf_map_self]
    case isFalse h => rw [logOf_append, logOf_map_of_ne h]
  cases hs with
  | call => cases inner
  | ret => cases inner
  | @spurious t op ht =>
    have woken : Evolves (s.threads t) (.woken op) [] := by
      rw [ht]
      exact .wake
    exact ⟨_, woken.update u, by simp [State.setThread]⟩
  | wait ht => exact ⟨_, Evolves.update (.block ht) u, by simp [State.setThread]⟩
  | stopped ht hr => exact ⟨_, Evolves.update (.stopped ht hr) u, by simp [State.setThread]⟩
  | put ht _ _ hn => exact ⟨_, Evolves.notified (.put ht) hn u, by simp⟩
  | take ht _ _ hn => exact ⟨_, Evolves.notified (.take ht) hn u, gains _ [_]⟩
  | takeList ht _ _ hn => exact ⟨_, Evolves.notified (.takeList ht) hn u, gains _ _⟩
  | stop ht => exact ⟨_, Evolves.update (.stop ht) u, by simp [State.setThread]⟩
  | stopNotFull ht =>
    exact ⟨[], Evolves.notifiedAll (.stopNotFull ht) u, by simp [State.setThread]⟩
  | stopNotEmpty ht =>
    exact ⟨[], Evolves.notifiedAll (.stopNotEmpty ht) u, by simp [State.setThread]⟩

variable [Fintype ι] {t : ι}

theorem eq_of_call {op : Op T} (h : step s (.call t op) = some s') :
    s.threads t = .idle ∧ s' = (s.offer op).setThread t (.ready op) := by
  cases step_cases h with
  | call ht => exact ⟨ht, rfl⟩

theorem eq_of_ret (h : step s (.ret t) = some s') :
    (∃ r, s.threads t = .returned r) ∧ s' = s.setThread t .idle := by
  cases step_cases h with
  | ret ht => exact ⟨⟨_, ht⟩, rfl⟩

end

end Leano.SyncQueue
