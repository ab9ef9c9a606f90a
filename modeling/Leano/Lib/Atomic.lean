import Leano.Lib.History
import Leano.Lib.Monitor
import Mathlib.Logic.Function.Basic

/-! Objects whose operations take effect at once, and what it is for a machine to be one of them as
far as its callers can see: linearizability. -/

universe u v w x y z

namespace Leano.Lib

structure Object (ω : Type w) (Op : Type u) (Res : Type v) where
  start : ω
  answers : ω → Op → Res → ω → Prop

/-- What a caller sees. -/
inductive Interaction (ι : Type x) (Op : Type u) (Res : Type v) where
  | call (t : ι) (op : Op)
  | ret (t : ι) (res : Res)
  deriving DecidableEq

inductive Moment (ι : Type x) (Op : Type u) (Res : Type v) where
  | call (t : ι) (op : Op)
  | effect (t : ι) (op : Op) (res : Res)
  | ret (t : ι) (res : Res)

inductive Stage (Op : Type u) (Res : Type v) where
  | idle
  | pending (op : Op)
  | done (res : Res)

section

variable {ω : Type w} {Op : Type u} {Res : Type v} {ι : Type x}

namespace Moment

def thread : Moment ι Op Res → ι
  | .call t _ => t
  | .effect t _ _ => t
  | .ret t _ => t

def interaction? : Moment ι Op Res → Option (Interaction ι Op Res)
  | .call t op => some (.call t op)
  | .effect _ _ _ => none
  | .ret t res => some (.ret t res)

def effect? : Moment ι Op Res → Option (Op × Res)
  | .call _ _ => none
  | .effect _ op res => some (op, res)
  | .ret _ _ => none

end Moment

inductive Object.Legal (O : Object ω Op Res) : List (Op × Res) → ω → Prop
  | start : O.Legal [] O.start
  | next {es w op res w'} : O.Legal es w → O.answers w op res w' → O.Legal (es ++ [(op, res)]) w'

/-- The moments of one thread, and where they leave it: every call takes effect once, before it
returns, and returns what it was answered. -/
inductive Turns : List (Moment ι Op Res) → Stage Op Res → Prop
  | start : Turns [] .idle
  | call {ms t op} : Turns ms .idle → Turns (ms ++ [.call t op]) (.pending op)
  | effect {ms t op res} : Turns ms (.pending op) → Turns (ms ++ [.effect t op res]) (.done res)
  | ret {ms t res} : Turns ms (.done res) → Turns (ms ++ [.ret t res]) .idle

variable [DecidableEq ι]

/-- The calls of a history take effect one at a time, each between its call and its return, as the
object would answer them in that order; `object` and `stage` are where that leaves it and the
callers. -/
def Linearizes (O : Object ω Op Res) (es : List (Interaction ι Op Res)) (object : ω)
    (stage : ι → Stage Op Res) : Prop :=
  ∃ ms : List (Moment ι Op Res), ms.filterMap Moment.interaction? = es ∧
    O.Legal (ms.filterMap Moment.effect?) object ∧
    ∀ t, Turns (ms.filter fun m => decide (m.thread = t)) (stage t)

def Linearizable (O : Object ω Op Res) (es : List (Interaction ι Op Res)) : Prop :=
  ∃ object stage, Linearizes O es object stage

inductive Moves (O : Object ω Op Res) (w : ω) (st : ι → Stage Op Res) :
    Option (Interaction ι Op Res) → ω → (ι → Stage Op Res) → Prop
  | still : Moves O w st none w st
  | call {t op} : st t = .idle →
      Moves O w st (some (.call t op)) w (Function.update st t (.pending op))
  | effect {t op res w'} : st t = .pending op → O.answers w op res w' →
      Moves O w st none w' (Function.update st t (.done res))
  | ret {t res} : st t = .done res →
      Moves O w st (some (.ret t res)) w (Function.update st t .idle)

variable {O : Object ω Op Res} {es : List (Interaction ι Op Res)}
  {e : Option (Interaction ι Op Res)} {w w' : ω}
  {st st' : ι → Stage Op Res}

theorem linearizes_start : Linearizes O ([] : List (Interaction ι Op Res)) O.start fun _ => .idle :=
  ⟨[], rfl, .start, fun _ => .start⟩

theorem turns_snoc {ms : List (Moment ι Op Res)} {m : Moment ι Op Res} {stage : Stage Op Res}
    (h : ∀ t, Turns (ms.filter fun m => decide (m.thread = t)) (st t))
    (own : Turns (ms.filter (fun k => decide (k.thread = m.thread)) ++ [m]) stage) (t : ι) :
    Turns ((ms ++ [m]).filter fun m => decide (m.thread = t))
      (Function.update st m.thread stage t) := by
  by_cases same : t = m.thread
  · subst same
    simpa using own
  · rw [Function.update_of_ne same, List.filter_append]
    have others : [m].filter (fun m => decide (m.thread = t)) = [] := by
      simp [Ne.symm same]
    rw [others, List.append_nil]
    exact h t

omit [DecidableEq ι] in
theorem effects_snoc {ms : List (Moment ι Op Res)} {m : Moment ι Op Res} (h : m.effect? = none) :
    (ms ++ [m]).filterMap Moment.effect? = ms.filterMap Moment.effect? := by
  simp [h]

theorem Linearizes.moves (h : Linearizes O es w st) (hm : Moves O w st e w' st') :
    Linearizes O (es ++ e.toList) w' st' := by
  obtain ⟨ms, rfl, legal, turns⟩ := h
  cases hm with
  | still => exact ⟨ms, (List.append_nil _).symm, legal, turns⟩
  | @call t op ht =>
    refine ⟨ms ++ [.call t op], by simp [Moment.interaction?], ?_, ?_⟩
    · rwa [effects_snoc (m := .call t op) rfl]
    · exact turns_snoc turns (.call (ht ▸ turns t))
  | @effect t op res _ ht answers =>
    refine ⟨ms ++ [.effect t op res], by simp [Moment.interaction?], ?_, ?_⟩
    · simpa [Moment.effect?] using legal.next answers
    · exact turns_snoc turns (.effect (ht ▸ turns t))
  | @ret t res ht =>
    refine ⟨ms ++ [.ret t res], by simp [Moment.interaction?], ?_, ?_⟩
    · rwa [effects_snoc (m := .ret t res) rfl]
    · exact turns_snoc turns (.ret (ht ▸ turns t))

section machine

variable {σ : Type y} {α : Type z} {step : σ → α → Option σ}
  {obs : σ → α → Option (Interaction ι Op Res)}
  {s₀ s : σ} {R : σ → ω → (ι → Stage Op Res) → Prop}

/-- A simulation of the object makes every history of a machine linearizable. -/
theorem History.linearizes (h : History step obs s₀ es s) (start : R s₀ O.start fun _ => .idle)
    (sim : ∀ s a t w st, Reach step s₀ s → R s w st → step s a = some t →
      ∃ w' st', Moves O w st (obs s a) w' st' ∧ R t w' st') :
    ∃ w st, Linearizes O es w st ∧ R s w st := by
  induction h with
  | start => exact ⟨_, _, linearizes_start, start⟩
  | next hr hs ih =>
    obtain ⟨w, st, linear, hR⟩ := ih
    obtain ⟨w', st', moves, hR'⟩ := sim _ _ _ _ _ hr.reach hR hs
    exact ⟨w', st', linear.moves moves, hR'⟩

end machine

end

section monitor

variable {Op : Type u} {Res : Type v} {ι : Type x} {Op' : Type w}

/-- A thread of a monitor stands where the object's caller does; `At` says it of the sections it may
be about to run. Whether it waits makes no difference. -/
def Phase.Stands (At : Op → Stage Op' Res → Prop) : Phase Op Res → Stage Op' Res → Prop
  | .idle, st => st = .idle
  | .ready op, st => At op st
  | .blocked op, st => At op st
  | .woken op, st => At op st
  | .returned res, st => st = .done res

variable {At : Op → Stage Op' Res → Prop} {st : Stage Op' Res} {ph : Phase Op Res}

theorem Phase.stands_section {op : Op} (hs : ph.section? = some op) (h : ph.Stands At st) :
    At op st := by
  cases ph with
  | ready | woken => cases hs; exact h
  | idle | blocked | returned => cases hs

variable {on : Op → Bool} {th th' : ι → Phase Op Res} {stage : ι → Stage Op' Res}

theorem stands_notifyAll (on : Op → Bool) (h : ∀ t, (th t).Stands At (stage t)) (t : ι) :
    (notifyAll on th t).Stands At (stage t) := by
  rcases notifyAll_at on th t with same | ⟨op, blocked, woken⟩
  · exact same ▸ h t
  · have waits := h t
    rw [blocked] at waits
    rw [woken]
    exact waits

variable [DecidableEq ι]

theorem Notified.stands (hn : Notified on th th') (h : ∀ t, (th t).Stands At (stage t)) (t : ι) :
    (th' t).Stands At (stage t) := by
  rcases hn.at t with same | ⟨op, blocked, woken⟩
  · exact same ▸ h t
  · have waits := h t
    rw [blocked] at waits
    rw [woken]
    exact waits

theorem stands_update (h : ∀ u, (th u).Stands At (stage u)) {t : ι} {ph : Phase Op Res}
    {st : Stage Op' Res} (own : ph.Stands At st) (u : ι) :
    (Function.update th t ph u).Stands At (Function.update stage t st u) := by
  by_cases same : u = t
  · subst same
    rwa [Function.update_self, Function.update_self]
  · rw [Function.update_of_ne same, Function.update_of_ne same]
    exact h u

theorem stands_update_left (h : ∀ u, (th u).Stands At (stage u)) {t : ι} {ph : Phase Op Res}
    (own : ph.Stands At (stage t)) (u : ι) :
    (Function.update th t ph u).Stands At (stage u) := by
  have both := stands_update (t := t) h own u
  rwa [Function.update_eq_self] at both

end monitor

end Leano.Lib
