import Leano.ConnPool.Defs
import Leano.Lib.Total

universe u v

namespace Leano.ConnPool

open Leano.Lib

variable {ι : Type v} {K : Type u}

/-- The connection on its way from the pool to the caller, or back. -/
def Pc.inTransit : Pc K → Option K
  | .inside (.releaseConnection conn) => conn
  | .returned (.connection con) => con
  | _ => none

def Caller.lent (c : Caller K) : Multiset K := (c.held : Multiset K) + c.pc.inTransit.toList

namespace Caller

variable {c c' : Caller K}

theorem lent_call [DecidableEq K] {op : Op K} (hc : c.pc = .idle) (h : c.call? op = some c') :
    c'.lent = c.lent := by
  cases op with
  | getConnection => cases h; simp [lent, hc, Pc.inTransit]
  | releaseConnection conn =>
    cases conn with
    | none => cases h; simp [lent, hc, Pc.inTransit]
    | some k =>
      simp only [call?] at h
      split at h
      case isTrue hk =>
        cases h
        have taken : (c.held.erase k : Multiset K) + {k} = c.held := by
          rw [add_comm, Multiset.singleton_add, Multiset.cons_coe]
          exact Multiset.coe_eq_coe.mpr (List.perm_cons_erase hk).symm
        simpa [lent, hc, Pc.inTransit] using taken
      case isFalse => cases h

theorem lent_back {r : Res K} (hc : c.pc = .returned r) : (c.back r).lent = c.lent := by
  cases r <;> simp [lent, back, hc, Pc.inTransit]

end Caller

def State.lentTo (s : State ι K) (t : ι) : Multiset K := (s.callers t).lent

variable [Fintype ι]

def State.lent (s : State ι K) : Multiset K := total Caller.lent s.callers

variable [DecidableEq ι] {s s' : State ι K} {t : ι}

theorem lent_setCaller {c : Caller K} (h : c.lent = (s.callers t).lent) :
    (s.setCaller t c).lent = s.lent := by
  have moved := total_update Caller.lent s.callers t c
  rw [h] at moved
  exact add_right_cancel moved

theorem lent_answer (s : State ι K) (t : ι) (r : Res K) :
    (s.answer t r).lent + (s.callers t).pc.inTransit.toList =
      s.lent + (Pc.returned r).inTransit.toList :=
  total_move (f := Caller.lent) s.callers (add_right_comm _ _ _)

theorem lent_connection (ht : (s.callers t).pc = .inside .getConnection) (con : Option K) :
    (s.answer t (.connection con)).lent = s.lent + con.toList := by
  have moved := lent_answer s t (.connection con)
  rw [ht] at moved
  simpa [Pc.inTransit] using moved

theorem lent_released {conn : Option K}
    (ht : (s.callers t).pc = .inside (.releaseConnection conn)) :
    (s.answer t .released).lent + conn.toList = s.lent := by
  have moved := lent_answer s t .released
  rw [ht] at moved
  simpa [Pc.inTransit] using moved

def State.Quiet (s : State ι K) : Prop := ∀ i, s.init = some i → ∀ t, (s.callers t).pc = .idle

omit [Fintype ι] [DecidableEq ι] in
theorem State.Quiet.not_init (h : s.Quiet) {pc : Pc K} (ht : (s.callers t).pc = pc)
    (busy : pc ≠ .idle) (i : Int) : s.init ≠ some i :=
  fun hi => busy (ht.symm.trans (h i hi t))

omit [Fintype ι] [DecidableEq ι] in
theorem State.Quiet.constructed (h : s.Quiet) {pc : Pc K} (ht : (s.callers t).pc = pc)
    (busy : pc ≠ .idle) : s.init = none :=
  Option.eq_none_iff_forall_ne_some.mpr (h.not_init ht busy)

/-- `curSize` counts every connection. While the constructor runs its loop is ahead of the count. -/
structure Books (maxSize : Int) (s : State ι K) : Prop where
  size : s.maxSize = maxSize
  law : s.curSize = s.connList.length + s.lent.card
  bound : s.curSize ≤ s.maxSize
  ahead : ∀ i, s.init = some i → s.curSize ≤ i

variable {maxSize : Int}

omit [DecidableEq ι] in
theorem Books.new (nonneg : 0 ≤ maxSize) : Books maxSize (State.new maxSize : State ι K) where
  size := rfl
  law := by
    have none : (State.new maxSize : State ι K).lent = 0 := total_eq_zero fun _ => rfl
    rw [none]
    rfl
  bound := nonneg
  ahead := by
    rintro i ⟨⟩
    exact le_rfl

variable [DecidableEq K] {a : Act ι K}

omit [Fintype ι] in
theorem State.Quiet.step (h : s.Quiet) (hs : step s a = some s') : s'.Quiet := by
  cases step_cases hs with
  | init hi => exact fun _ _ => h _ hi
  | initFailed hi => exact fun _ _ => h _ hi
  | constructed => exact nofun
  | call hi =>
    intro i hi'
    cases hi.symm.trans hi'
  | reuse ht | replace ht | discard ht | create ht | fail ht | ret ht =>
    exact fun i hi => absurd hi (h.not_init ht nofun i)
  | @release t closed r conn ht =>
    cases conn with
    | none => exact fun i hi => absurd hi (h.not_init ht nofun i)
    | some k => exact fun i hi => absurd hi (h.not_init ht nofun i)

omit [Fintype ι] in
theorem quiet_of_reach (h : Reach step (State.new maxSize) s) : s.Quiet :=
  h.invariant (I := State.Quiet) (fun _ _ _ => rfl) fun _ _ _ _ hI _ hs => hI.step hs

theorem Books.step (nonneg : 0 ≤ maxSize) (quiet : s.Quiet) (h : Books maxSize s)
    (hs : step s a = some s') : Books maxSize s' := by
  have ⟨size, law, bound, ahead⟩ := h
  have half : s.iInitialSize = maxSize / 2 := by
    rw [State.iInitialSize, size, Int.tdiv_eq_ediv_of_nonneg nonneg]
  cases step_cases hs with
  | @init i k hi more =>
    refine ⟨size, ?_, ?_, ?_⟩
    · change s.curSize + 1 = ((s.connList ++ [k]).length : Int) + s.lent.card
      rw [law, List.length_append, List.length_singleton]
      omega
    · have behind := ahead i hi
      change s.curSize + 1 ≤ s.maxSize
      omega
    · rintro _ ⟨⟩
      exact Int.add_le_add_right (ahead i hi) 1
  | @initFailed i r hi =>
    refine ⟨size, law, bound, ?_⟩
    rintro _ ⟨⟩
    exact (ahead i hi).trans (Int.le_add_one le_rfl)
  | constructed => exact ⟨size, law, bound, nofun⟩
  | @call t op c hi ht hc =>
    refine ⟨size, ?_, bound, ?_⟩
    · rw [lent_setCaller (Caller.lent_call ht hc)]
      exact law
    · intro i hi'
      cases hi.symm.trans hi'
  | @reuse t r con rest ht hq =>
    refine ⟨size, ?_, bound, fun i hi => absurd hi (quiet.not_init ht nofun i)⟩
    change s.curSize = (rest.length : Int) + (s.answer t (.connection (some con))).lent.card
    rw [lent_connection ht, law, hq, Multiset.card_add, List.length_cons]
    push_cast
    exact add_right_comm _ _ _
  | @replace t con rest k ht hq =>
    refine ⟨size, ?_, bound, fun i hi => absurd hi (quiet.not_init ht nofun i)⟩
    change s.curSize = (rest.length : Int) + (s.answer t (.connection (some k))).lent.card
    rw [lent_connection ht, law, hq, Multiset.card_add, List.length_cons]
    push_cast
    exact add_right_comm _ _ _
  | @discard t r con rest ht hq =>
    refine ⟨size, ?_, ?_, fun i hi => absurd hi (quiet.not_init ht nofun i)⟩
    · change s.curSize - 1 = (rest.length : Int) + (s.answer t (.connection none)).lent.card
      rw [lent_connection ht, law, hq, List.length_cons]
      push_cast
      simp
      omega
    · change s.curSize - 1 ≤ s.maxSize
      omega
  | @create t closed k ht hq room =>
    refine ⟨size, ?_, ?_, fun i hi => absurd hi (quiet.not_init ht nofun i)⟩
    · change s.curSize + 1 =
        (s.connList.length : Int) + (s.answer t (.connection (some k))).lent.card
      rw [lent_connection ht, law, Multiset.card_add]
      push_cast
      exact add_assoc _ _ _
    · change s.curSize + 1 ≤ s.maxSize
      omega
  | @fail t closed r ht hq =>
    refine ⟨size, ?_, bound, fun i hi => absurd hi (quiet.not_init ht nofun i)⟩
    rw [lent_connection ht]
    exact law.trans (by simp; rfl)
  | @release t closed r conn ht =>
    have back := congrArg Multiset.card (lent_released ht)
    rw [Multiset.card_add] at back
    cases conn with
    | none =>
      refine ⟨size, ?_, bound, fun i hi => absurd hi (quiet.not_init ht nofun i)⟩
      change s.curSize = (s.connList.length : Int) + (s.answer t .released).lent.card
      rw [law, ← back]
      rfl
    | some k =>
      refine ⟨size, ?_, bound, fun i hi => absurd hi (quiet.not_init ht nofun i)⟩
      change s.curSize = ((s.connList ++ [k]).length : Int) + (s.answer t .released).lent.card
      rw [law, ← back, List.length_append]
      push_cast
      exact add_left_comm _ _ _ |>.trans (add_comm _ _)
  | @ret t r ht =>
    refine ⟨size, ?_, bound, ?_⟩
    · rw [lent_setCaller (Caller.lent_back ht)]
      exact law
    · exact fun i hi => absurd hi (quiet.not_init ht nofun i)

theorem reach_books (nonneg : 0 ≤ maxSize) (h : Reach step (State.new maxSize) s) :
    Books maxSize s :=
  h.invariant (I := Books maxSize) (.new nonneg) fun _ _ _ hr hI _ hs =>
    hI.step nonneg (quiet_of_reach hr) hs

end Leano.ConnPool
