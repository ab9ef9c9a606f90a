import Leano.ConnPool.Lending
import Leano.ConnPool.Refusals
import Leano.ConnPool.Sections

/-! While the lock excludes, a critical section is one step. What a caller has done so far inside is
read off its stage, and what the others do meanwhile commutes with it. -/

universe u v

namespace Leano.ConnPool

open Leano.Lib

variable {ι : Type v} {K : Type u}

/-- The pool `s` in the middle of a section that was entered in `t`. Its connects have failed only
if they `may`. -/
inductive Midway (may : Prop) (t : State ι K) : Op K → State ι K → Stage K → Prop
  | size : Midway may t .getConnection t .size
  | front {con rest} : t.connList = con :: rest → Midway may t .getConnection t .front
  | popFront {con rest} : t.connList = con :: rest →
      Midway may t .getConnection t (.popFront con)
  | isClosed {con rest} : t.connList = con :: rest →
      Midway may t .getConnection { t with connList := rest } (.isClosed con)
  | delete {con rest} : t.connList = con :: rest →
      Midway may t .getConnection { t with connList := rest } (.delete con)
  | replace {con rest} : t.connList = con :: rest →
      Midway may t .getConnection
        { t with connList := rest, deleted := t.deleted ++ [con] } .replace
  | decrease {con rest} : t.connList = con :: rest → may →
      Midway may t .getConnection
        { t with connList := rest, deleted := t.deleted ++ [con] } .decrease
  | decreased {con rest} : t.connList = con :: rest → may →
      Midway may t .getConnection
        { t with connList := rest, deleted := t.deleted ++ [con] } (.decreased t.curSize)
  | room : t.connList = [] → Midway may t .getConnection t .room
  | create : t.connList = [] → t.curSize < t.maxSize → Midway may t .getConnection t .create
  | increase {k} : t.connList = [] → t.curSize < t.maxSize → k ∉ t.made →
      Midway may t .getConnection { t with made := t.made ++ [k] } (.increase k)
  | increased {k} : t.connList = [] → t.curSize < t.maxSize → k ∉ t.made →
      Midway may t .getConnection { t with made := t.made ++ [k] } (.increased k t.curSize)
  | pushBack {k} : Midway may t (.releaseConnection (some k)) t (.pushBack k)
  | reused {con rest} : t.connList = con :: rest →
      Midway may t .getConnection { t with connList := rest } (.unlock (.connection (some con)))
  | replaced {con rest k} : t.connList = con :: rest → k ∉ t.made →
      Midway may t .getConnection
        { t with connList := rest, made := t.made ++ [k], deleted := t.deleted ++ [con] }
        (.unlock (.connection (some k)))
  | discarded {con rest} : t.connList = con :: rest → may →
      Midway may t .getConnection
        { t with
          connList := rest
          curSize := t.curSize - 1
          deleted := t.deleted ++ [con] } (.unlock (.connection none))
  | created {k} : t.connList = [] → t.curSize < t.maxSize → k ∉ t.made →
      Midway may t .getConnection { t with curSize := t.curSize + 1, made := t.made ++ [k] }
        (.unlock (.connection (some k)))
  | failed : t.connList = [] → t.curSize < t.maxSize → may →
      Midway may t .getConnection t (.unlock (.connection none))
  | refused : t.connList = [] → ¬ t.curSize < t.maxSize →
      Midway may t .getConnection t (.unlock (.connection none))
  | released {k} :
      Midway may t (.releaseConnection (some k)) { t with connList := t.connList ++ [k] }
        (.unlock .released)

namespace Midway

variable {may : Prop} {t s s' : State ι K} {op : Op K} {c c' : Stage K}

theorem of_entry (h : op.entry = some c) : Midway may t op t c := by
  cases op with
  | getConnection => cases h; exact .size
  | releaseConnection conn =>
    cases conn with
    | none => cases h
    | some k => cases h; exact .pushBack

theorem callers_eq (h : Midway may t op s c) : s.callers = t.callers := by
  cases h <;> rfl

theorem not_lost (h : Midway may t op s c) : c ≠ .lost := by
  cases h <;> nofun

theorem curSize_eq (h : Midway may t op s c) (busy : ∀ res, c ≠ .unlock res) :
    s.curSize = t.curSize := by
  cases h with
  | reused | replaced | discarded | created | failed | refused | released =>
    exact absurd rfl (busy _)
  | _ => rfl

theorem lies (h : Midway True t op s c) :
    (s.connList = t.connList ∧ s.deleted = t.deleted ∧ c.inHand = (Pc.inside op).inTransit) ∨
      ∃ s' res, Midway True t op s' (.unlock res) ∧ s.connList = s'.connList ∧
        s.deleted = s'.deleted ∧ c.inHand = (Pc.returned res).inTransit := by
  cases h with
  | isClosed hq => exact .inr ⟨_, _, .reused hq, rfl, rfl, rfl⟩
  | delete hq => exact .inr ⟨_, _, .reused hq, rfl, rfl, rfl⟩
  | replace hq => exact .inr ⟨_, _, .discarded hq trivial, rfl, rfl, rfl⟩
  | decrease hq may => exact .inr ⟨_, _, .discarded hq may, rfl, rfl, rfl⟩
  | decreased hq may => exact .inr ⟨_, _, .discarded hq may, rfl, rfl, rfl⟩
  | increase hq room fresh => exact .inr ⟨_, _, .created hq room fresh, rfl, rfl, rfl⟩
  | increased hq room fresh => exact .inr ⟨_, _, .created hq room fresh, rfl, rfl, rfl⟩
  | reused hq => exact .inr ⟨_, _, .reused hq, rfl, rfl, rfl⟩
  | replaced hq fresh => exact .inr ⟨_, _, .replaced hq fresh, rfl, rfl, rfl⟩
  | discarded hq may => exact .inr ⟨_, _, .discarded hq may, rfl, rfl, rfl⟩
  | created hq room fresh => exact .inr ⟨_, _, .created hq room fresh, rfl, rfl, rfl⟩
  | released => exact .inr ⟨_, _, .released, rfl, rfl, rfl⟩
  | _ => exact .inl ⟨rfl, rfl, rfl⟩

theorem init_eq (h : Midway may t op s c) : s.init = t.init := by
  cases h <;> rfl

section

variable [DecidableEq ι]

theorem setCaller (h : Midway may t op s c) (u : ι) (x : Caller K) :
    Midway may (t.setCaller u x) op (s.setCaller u x) c := by
  cases h with
  | size => exact .size
  | front hq => exact .front hq
  | popFront hq => exact .popFront hq
  | isClosed hq => exact .isClosed (t := t.setCaller u x) hq
  | delete hq => exact .delete (t := t.setCaller u x) hq
  | replace hq => exact .replace (t := t.setCaller u x) hq
  | decrease hq hr => exact .decrease (t := t.setCaller u x) hq hr
  | decreased hq hr => exact .decreased (t := t.setCaller u x) hq hr
  | room hq => exact .room hq
  | create hq room => exact .create hq room
  | increase hq room fresh => exact .increase (t := t.setCaller u x) hq room fresh
  | increased hq room fresh => exact .increased (t := t.setCaller u x) hq room fresh
  | pushBack => exact .pushBack
  | reused hq => exact .reused (t := t.setCaller u x) hq
  | replaced hq fresh => exact .replaced (t := t.setCaller u x) hq fresh
  | discarded hq hr => exact .discarded (t := t.setCaller u x) hq hr
  | created hq room fresh => exact .created (t := t.setCaller u x) hq room fresh
  | failed hq room hr => exact .failed hq room hr
  | refused hq full => exact .refused hq full
  | released => exact .released (t := t.setCaller u x)

end

section

variable [DecidableEq K] {closed : Bool} {r : Connect K}

theorem work (h : Midway may t op s c) (out : ∀ k ∈ t.connList, k ∉ t.deleted)
    (hr : r.Fails → may) (hw : ConnPool.work s closed r c = some (s', c')) :
    Midway may t op s' c' := by
  cases h with
  | size =>
    cases hw
    split
    case isTrue some =>
      obtain ⟨con, rest, hq⟩ := List.exists_cons_of_length_pos some
      exact .front hq
    case isFalse none => exact .room (List.eq_nil_of_length_eq_zero (by omega))
  | front hq =>
    simp only [ConnPool.work, hq] at hw
    cases hw
    exact .popFront hq
  | popFront hq =>
    simp only [ConnPool.work, hq] at hw
    cases hw
    exact .isClosed hq
  | isClosed hq =>
    have there := out _ (hq ▸ List.mem_cons_self)
    simp only [ConnPool.work, there, if_false] at hw
    cases hw
    split
    case isTrue => exact .delete hq
    case isFalse => exact .reused hq
  | delete hq =>
    have there := out _ (hq ▸ List.mem_cons_self)
    simp only [ConnPool.work, there, if_false] at hw
    cases hw
    exact .replace hq
  | replace hq =>
    obtain ⟨⟨u, conn⟩, hu, eq⟩ := Option.map_eq_some_iff.mp hw
    obtain ⟨k, rfl, fresh, rfl, rfl⟩ | ⟨rfl, rfl⟩ := createConnection_cases hu
    · cases eq
      exact .replaced hq fresh
    · cases eq
      exact .decrease hq (hr (fails_of_createConnection hu))
  | decrease hq may => cases hw; exact .decreased hq may
  | decreased hq may => cases hw; exact .discarded hq may
  | room hq =>
    cases hw
    split
    case isTrue room => exact .create hq room
    case isFalse full => exact .refused hq full
  | create hq room =>
    obtain ⟨⟨u, conn⟩, hu, eq⟩ := Option.map_eq_some_iff.mp hw
    obtain ⟨k, rfl, fresh, rfl, rfl⟩ | ⟨rfl, rfl⟩ := createConnection_cases hu
    · cases eq
      exact .increase hq room fresh
    · cases eq
      exact .failed hq room (hr (fails_of_createConnection hu))
  | increase hq room fresh => cases hw; exact .increased hq room fresh
  | increased hq room fresh => cases hw; exact .created hq room fresh
  | pushBack => cases hw; exact .released
  | _ => cases hw

variable [DecidableEq ι] {u : ι} {res : Res K}

theorem step (h : Midway may t op s (.unlock res)) (hop : (t.callers u).pc = .inside op) :
    ∃ closed r, ConnPool.step t (.run u closed r) = some (s.answer u res) := by
  have run : ∀ closed r, t.critical u closed r op = some (s.answer u res) →
      ∃ closed r, ConnPool.step t (.run u closed r) = some (s.answer u res) := by
    intro closed r hc
    refine ⟨closed, r, ?_⟩
    rw [ConnPool.step, hop]
    exact hc
  cases h with
  | reused hq =>
    refine run false .sqlException ?_
    simp only [State.critical, State.getConnection, hq, Bool.false_eq_true, if_false]
  | @replaced con rest k hq fresh =>
    refine run true (.connection k) ?_
    simp only [State.critical, State.getConnection, hq, State.createConnection, fresh, if_true,
      if_false, Option.map_some]
  | discarded hq may =>
    refine run true .sqlException ?_
    simp only [State.critical, State.getConnection, hq, State.createConnection, if_true,
      Option.map_some]
  | @created k hq room fresh =>
    refine run false (.connection k) ?_
    simp only [State.critical, State.getConnection, hq, State.createConnection, room, fresh,
      if_true, if_false, Option.map_some]
  | failed hq room may =>
    refine run false .sqlException ?_
    simp only [State.critical, State.getConnection, hq, State.createConnection, room, if_true,
      Option.map_some]
  | refused hq full =>
    refine run false .sqlException ?_
    simp only [State.critical, State.getConnection, hq, full, if_false]
  | released => exact run false .sqlException rfl

end

end Midway

section

/-- The caller `u` is in the middle of a section that was entered in `t`, and nobody else is in
one. -/
structure Pool.Inside (may : Prop) (p : Pool ι K) (u : ι) (op : Op K) (t : State ι K)
    (c : Stage K) : Prop where
  stage : p.stage u = some c
  alone : ∀ v, v ≠ u → p.stage v = none
  pc : (t.callers u).pc = .inside op
  midway : Midway may t op p.state c

variable [DecidableEq ι] [DecidableEq K] {p p' : Pool ι K} {may : Prop} {u : ι} {op : Op K}
  {t : State ι K} {c : Stage K}

namespace Pool.Inside

omit [DecidableEq K] in
theorem setCaller (h : p.Inside may u op t c) {v : ι} (hv : v ≠ u) (x : Caller K) :
    Inside may { p with state := p.state.setCaller v x } u op (t.setCaller v x) c where
  stage := h.stage
  alone := h.alone
  pc := by
    simp only [State.setCaller, Function.update_of_ne hv.symm]
    exact h.pc
  midway := h.midway.setCaller v x

theorem beside (h : p.Inside may u op t c) (quiet : t.Quiet) {b : Beside ι K} {s : State ι K}
    (hs : ConnPool.step p.state b.act = some s) :
    ∃ v x, v ≠ u ∧ x.lent = (t.callers v).lent ∧ s = p.state.setCaller v x ∧
      ConnPool.step t b.act = some (t.setCaller v x) := by
  have init : t.init = none := quiet.constructed h.pc (by rintro ⟨⟩)
  have init' : p.state.init = none := h.midway.init_eq.trans init
  have apart : ∀ {v pc}, (t.callers v).pc = pc → (∀ op, pc ≠ .inside op) → v ≠ u := by
    rintro v pc hv out rfl
    exact out op (hv.symm.trans h.pc)
  have callers := h.midway.callers_eq
  cases b with
  | initConnection r =>
    simp only [Beside.act, ConnPool.step, init'] at hs
    cases hs
  | constructed =>
    simp only [Beside.act, ConnPool.step, init'] at hs
    cases hs
  | call v op' =>
    change ConnPool.step p.state (.call v op') = some s at hs
    cases step_cases hs with
    | @call _ _ x _ hv hx =>
      rw [callers] at hv hx
      refine ⟨v, x, apart hv (by rintro _ ⟨⟩), Caller.lent_call hv hx, rfl, ?_⟩
      simp only [Beside.act, ConnPool.step, init, hv, hx, Option.map_some]
  | ret v =>
    change ConnPool.step p.state (.ret v) = some s at hs
    cases step_cases hs with
    | @ret _ r hv =>
      rw [callers] at hv
      refine ⟨v, (t.callers v).back r, apart hv (by rintro _ ⟨⟩), Caller.lent_back hv, ?_, ?_⟩
      · rw [callers]
      · simp only [Beside.act, ConnPool.step, hv]

theorem step (h : p.Inside may u op t c) (quiet : t.Quiet)
    (out : ∀ k ∈ t.connList, k ∉ t.deleted) {a : Act ι K} (ha : p.Excludes a)
    (hr : ∀ closed r, a = .work u closed r → r.Fails → may) (hs : p.step a = some p') :
    (∃ res, a = .unlock u ∧ c = .unlock res ∧ p' = p.leave u res) ∨
      (∃ c', p'.Inside may u op t c') ∨
      ∃ v x b, x.lent = (t.callers v).lent ∧ ConnPool.step t b = some (t.setCaller v x) ∧
        p'.Inside may u op (t.setCaller v x) c := by
  have only : ∀ {v d}, p.stage v = some d → v = u := by
    intro v d hv
    by_contra ne
    cases (h.alone v ne).symm.trans hv
  cases a with
  | beside b =>
    obtain ⟨s, hb, rfl⟩ := Option.map_eq_some_iff.mp hs
    obtain ⟨v, x, hv, lent, rfl, hx⟩ := h.beside quiet hb
    exact .inr (.inr ⟨v, x, _, lent, hx, h.setCaller hv x⟩)
  | skip v =>
    simp only [Pool.step] at hs
    split at hs
    case h_1 hv =>
      cases hs
      rw [h.midway.callers_eq] at hv
      have ne : v ≠ u := by
        rintro rfl
        cases h.pc.symm.trans hv
        cases h.midway
      refine .inr (.inr ⟨v, { t.callers v with pc := .returned .released },
        .run v false .sqlException, ?_, ?_, ?_⟩)
      · simp [Caller.lent, Pc.inTransit, hv]
      · rw [ConnPool.step, hv]
        rfl
      · have moved := h.setCaller ne { t.callers v with pc := .returned .released }
        rw [State.answer, h.midway.callers_eq]
        exact moved
    case h_2 => cases hs
  | lock v => cases (ha u).symm.trans h.stage
  | work v closed r =>
    simp only [Pool.step] at hs
    split at hs
    case h_1 d hd =>
      obtain rfl := only hd
      obtain rfl := Option.some.inj (h.stage.symm.trans hd)
      obtain ⟨⟨s, c'⟩, hw, rfl⟩ := Option.map_eq_some_iff.mp hs
      refine .inr (.inl ⟨c', ?_, ?_, h.pc, h.midway.work out (hr closed r rfl) hw⟩)
      · exact Function.update_self _ _ _
      · intro w hw
        exact (Function.update_of_ne hw _ _).trans (h.alone w hw)
    case h_2 => cases hs
  | unlock v =>
    simp only [Pool.step] at hs
    split at hs
    case h_1 res hd =>
      obtain rfl := only hd
      obtain rfl := Option.some.inj (h.stage.symm.trans hd)
      cases hs
      exact .inl ⟨res, rfl, rfl, rfl⟩
    case h_2 => cases hs

end Pool.Inside

/-- The pool is where the one with whole sections is in `t`, but for a section under way. -/
inductive Pool.Reduces (p : Pool ι K) : State ι K → Prop
  | free : p.Free → Reduces p p.state
  | inside {u : ι} {op : Op K} {t : State ι K} {c : Stage K} : p.Inside True u op t c → Reduces p t

namespace Pool

omit [DecidableEq K] in
theorem free_leave (alone : ∀ v, v ≠ u → p.stage v = none) (res : Res K) :
    (p.leave u res).Free := by
  intro v
  by_cases hv : v = u
  · subst hv
    exact Function.update_self _ _ _
  · exact (Function.update_of_ne hv _ _).trans (alone v hv)

theorem inside_of_lock (may : Prop) (free : p.Free) (hs : p.step (.lock u) = some p') :
    ∃ op c, p'.Inside may u op p.state c := by
  simp only [Pool.step] at hs
  split at hs
  case h_1 op hu hst =>
    obtain ⟨c, hc, rfl⟩ := Option.map_eq_some_iff.mp hs
    refine ⟨op, c, Function.update_self _ _ _, ?_, hu, .of_entry hc⟩
    intro v hv
    exact (Function.update_of_ne hv _ _).trans (free v)
  case h_2 => cases hs

theorem step_of_free (free : p.Free) {a : Act ι K} (hs : p.step a = some p') :
    (∃ b, ConnPool.step p.state b = some p'.state ∧ p'.Free) ∨
      ∃ u op c, p'.Inside True u op p.state c := by
  cases a with
  | beside b =>
    obtain ⟨s, hb, rfl⟩ := Option.map_eq_some_iff.mp hs
    exact .inl ⟨b.act, hb, free⟩
  | skip v =>
    simp only [Pool.step] at hs
    split at hs
    case h_1 hv =>
      cases hs
      refine .inl ⟨.run v false .sqlException, ?_, free⟩
      rw [ConnPool.step, hv]
      rfl
    case h_2 => cases hs
  | lock u => exact .inr ⟨u, inside_of_lock True free hs⟩
  | work u closed r =>
    simp only [Pool.step, free u] at hs
    cases hs
  | unlock u =>
    simp only [Pool.step, free u] at hs
    cases hs

section

variable [Fintype ι] {maxSize : Int}

/-- While the lock excludes, the pool reduces to the one whose sections are steps. -/
theorem reduces (h : ReachIf step Excludes (new maxSize) p) :
    ∃ t, Reach ConnPool.step (State.new maxSize) t ∧ p.Reduces t := by
  refine h.invariant (I := fun p => ∃ t, Reach ConnPool.step (State.new maxSize) t ∧ p.Reduces t)
    ⟨_, .start, .free fun _ => rfl⟩ ?_
  rintro p a p' - ⟨t, ht, hp⟩ ha hs
  cases hp with
  | free free =>
    obtain ⟨b, hb, free'⟩ | ⟨u, op, c, inside⟩ := step_of_free free hs
    · exact ⟨_, .next ht trivial hb, .free free'⟩
    · exact ⟨_, ht, .inside inside⟩
  | inside inside =>
    have out : ∀ k ∈ t.connList, k ∉ t.deleted :=
      fun k idle gone => ((apart_of_reach ht).gone k gone).1 idle
    obtain ⟨res, rfl, rfl, rfl⟩ | ⟨c', inside'⟩ | ⟨v, x, b, -, hb, inside'⟩ :=
      inside.step (quiet_of_reach ht) out ha (fun _ _ _ _ => trivial) hs
    · obtain ⟨closed, r, hrun⟩ := inside.midway.step inside.pc
      exact ⟨_, .next ht trivial hrun, .free (free_leave inside.alone res)⟩
    · exact ⟨t, ht, .inside inside'⟩
    · exact ⟨_, .next ht trivial hb, .inside inside'⟩

theorem reach_of_free (h : ReachIf step Excludes (new maxSize) p) (free : p.Free) :
    Reach ConnPool.step (State.new maxSize) p.state := by
  obtain ⟨t, ht, hp⟩ := reduces h
  cases hp with
  | free => exact ht
  | inside inside => cases (free _).symm.trans inside.stage

/-- The connections lie as they do in the pool whose sections are steps, before or after a section
under way. -/
theorem lies (h : ReachIf step Excludes (new maxSize) p) :
    ∃ t, Reach ConnPool.step (State.new maxSize) t ∧ p.state.connList = t.connList ∧
      p.state.deleted = t.deleted ∧ ∀ u, p.lentTo u = t.lentTo u := by
  obtain ⟨t, ht, hp⟩ := reduces h
  cases hp with
  | free free => exact ⟨_, ht, rfl, rfl, fun u => by rw [lentTo, free u]⟩
  | @inside u op t c inside =>
    have callers := inside.midway.callers_eq
    have others : ∀ v, v ≠ u → p.lentTo v = t.lentTo v := by
      intro v hv
      rw [lentTo, inside.alone v hv, State.lentTo, callers, State.lentTo]
    have own : p.lentTo u = ((t.callers u).held : Multiset K) + c.inHand.toList := by
      rw [lentTo, inside.stage, callers]
    obtain ⟨idle, gone, hand⟩ | ⟨s', res, midway, idle, gone, hand⟩ := inside.midway.lies
    · refine ⟨t, ht, idle, gone, fun v => ?_⟩
      by_cases hv : v = u
      · subst hv
        rw [own, hand, State.lentTo, Caller.lent, inside.pc]
      · exact others v hv
    · obtain ⟨closed, r, hrun⟩ := midway.step inside.pc
      refine ⟨_, .next ht trivial hrun, idle, gone, fun v => ?_⟩
      by_cases hv : v = u
      · subst hv
        rw [own, hand]
        simp only [State.lentTo, State.answer, State.setCaller, Function.update_self, Caller.lent,
          midway.callers_eq]
      · rw [others v hv]
        simp only [State.lentTo, State.answer, State.setCaller, Function.update_of_ne hv,
          midway.callers_eq]

end

end Pool

end

end Leano.ConnPool
