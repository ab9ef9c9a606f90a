import Leano.ConnPool.Reduction

universe u v

namespace Leano.ConnPool.Pool

open Leano.Lib

variable {ι : Type v} {K : Type u} [Fintype ι]

theorem lent_eq {p : Pool ι K} {t : State ι K} (h : ∀ u, p.lentTo u = t.lentTo u) :
    p.lent = t.lent := total_congr h

theorem lent_of_free {p : Pool ι K} (free : p.Free) : p.lent = p.state.lent :=
  lent_eq fun u => by rw [lentTo, free u]

variable [DecidableEq ι] [DecidableEq K] {p p' : Pool ι K} {maxSize : Int}

theorem books_of_reach (nonneg : 0 ≤ maxSize) (h : ReachIf step Excludes (new maxSize) p) :
    0 ≤ p.state.curSize ∧ p.state.curSize ≤ maxSize := by
  have bounds : ∀ {t : State ι K}, Reach ConnPool.step (State.new maxSize) t →
      0 ≤ t.curSize ∧ t.curSize ≤ maxSize := by
    intro t ht
    obtain ⟨size, law, bound, -⟩ := reach_books nonneg ht
    omega
  obtain ⟨t, ht, hp⟩ := reduces h
  cases hp with
  | free => exact bounds ht
  | @inside u op t c inside =>
    by_cases last : ∃ res, c = .unlock res
    · obtain ⟨res, rfl⟩ := last
      obtain ⟨closed, r, hs⟩ := inside.midway.step inside.pc
      exact bounds (t := p.state.answer u res) (.next ht trivial hs)
    · rw [inside.midway.curSize_eq (not_exists.mp last)]
      exact bounds ht

/-- `curSize` is never out of bounds, and whenever nobody is inside (so after the constructor and
after each section) it is the number of connections in the pool and lent out. -/
theorem keeps_books (nonneg : 0 ≤ maxSize) (h : ReachIf step Excludes (new maxSize) p) :
    (0 ≤ p.state.curSize ∧ p.state.curSize ≤ maxSize) ∧
      (p.Free → p.state.curSize = p.state.connList.length + p.lent.card) := by
  refine ⟨books_of_reach nonneg h, fun free => ?_⟩
  rw [lent_of_free free]
  exact (reach_books nonneg (reach_of_free h free)).law

theorem keeps_books_of_two :
    ∃ p : Pool (Fin 2) Nat, (p.Free ∧ p.state.deleted = [1] ∧ (p.state.callers 1).held = [2]) ∧
      (0 ≤ p.state.curSize ∧ p.state.curSize ≤ 4) ∧
        (p.Free → p.state.curSize = p.state.connList.length + p.lent.card) := by
  obtain ⟨p, hp, now⟩ := exists_reachIf step Excludes (new 4)
    ([.beside (.initConnection (.connection 1)), .beside (.initConnection .sqlException),
        .beside .constructed, .beside (.call 0 .getConnection), .beside (.call 1 .getConnection),
        .lock 0] ++
      List.replicate 8 (.work 0 true .runtimeError) ++ [.unlock 0, .beside (.ret 0), .lock 1] ++
      List.replicate 5 (.work 1 false (.connection 2)) ++ [.unlock 1, .beside (.ret 1)])
    (fun p : Pool (Fin 2) Nat => decide (p.Free ∧ p.state.deleted = [1] ∧
      (p.state.callers 1).held = [2])) (by decide)
  exact ⟨p, of_decide_eq_true now, keeps_books (by decide) hp⟩

/-- Two callers are let in at once, make a connection each and store the same count. -/
theorem loses_count : ¬ ∀ p : Pool (Fin 2) Nat, Reach step (new 1) p →
    (0 ≤ p.state.curSize ∧ p.state.curSize ≤ 1) ∧
      (p.Free → p.state.curSize = p.state.connList.length + p.lent.card) := by
  intro all
  obtain ⟨p, hp, now⟩ := exists_reach step (new 1)
    ([.beside .constructed, .beside (.call 0 .getConnection), .beside (.call 1 .getConnection),
        .lock 0, .lock 1] ++
      List.replicate 3 (.work 0 false (.connection 1)) ++
      List.replicate 3 (.work 1 false (.connection 2)) ++
      [.work 0 false .sqlException, .work 1 false .sqlException, .work 0 false .sqlException,
        .work 1 false .sqlException, .unlock 0, .unlock 1, .beside (.ret 0), .beside (.ret 1)])
    (fun p : Pool (Fin 2) Nat => decide (p.Free ∧ p.state.curSize = 1 ∧
      p.state.connList.length = 0 ∧ p.lent.card = 2)) (by decide)
  obtain ⟨free, size, idle, lent⟩ := of_decide_eq_true now
  have law := (all p hp).2 free
  rw [size, idle, lent] at law
  exact absurd law (by decide)

omit [Fintype ι] in
theorem deleted_of_beside {s s' : State ι K} {b : Beside ι K}
    (h : ConnPool.step s b.act = some s') : s'.deleted = s.deleted := by
  cases b with
  | initConnection r =>
    change ConnPool.step s (.initConnection r) = some s' at h
    cases step_cases h with
    | init => rfl
    | initFailed => rfl
  | constructed =>
    change ConnPool.step s .constructed = some s' at h
    cases step_cases h with
    | constructed => rfl
  | call t op =>
    change ConnPool.step s (.call t op) = some s' at h
    cases step_cases h with
    | call => rfl
  | ret t =>
    change ConnPool.step s (.ret t) = some s' at h
    cases step_cases h with
    | ret => rfl

omit [Fintype ι] [DecidableEq ι] in
theorem deleted_of_work {s s' : State ι K} {closed : Bool} {r : Connect K} {c c' : Stage K}
    (h : ConnPool.work s closed r c = some (s', c')) : s.deleted <+: s'.deleted := by
  cases c with
  | delete con =>
    simp only [ConnPool.work] at h
    split at h
    · cases h; exact List.prefix_rfl
    · cases h; exact List.prefix_append _ _
  | front =>
    simp only [ConnPool.work] at h
    split at h <;> cases h <;> exact List.prefix_rfl
  | popFront con =>
    simp only [ConnPool.work] at h
    split at h <;> cases h <;> exact List.prefix_rfl
  | isClosed con =>
    simp only [ConnPool.work] at h
    split at h <;> cases h <;> exact List.prefix_rfl
  | replace | create =>
    obtain ⟨⟨u, conn⟩, hu, eq⟩ := Option.map_eq_some_iff.mp h
    obtain ⟨k, rfl, -, rfl, rfl⟩ | ⟨rfl, rfl⟩ := createConnection_cases hu
    · cases eq; exact List.prefix_rfl
    · cases eq; exact List.prefix_rfl
  | unlock | lost => cases h
  | _ => cases h; exact List.prefix_rfl

omit [Fintype ι] in
theorem deleted_of_reach {ok : Pool ι K → Act ι K → Prop} (h : ReachIf step ok p p') :
    p.state.deleted <+: p'.state.deleted := by
  refine h.invariant (I := fun q => p.state.deleted <+: q.state.deleted) List.prefix_rfl ?_
  intro q a q' _ before _ hs
  refine before.trans ?_
  cases a with
  | beside b =>
    obtain ⟨s, hb, rfl⟩ := Option.map_eq_some_iff.mp hs
    rw [deleted_of_beside hb]
  | skip t =>
    simp only [step] at hs
    split at hs <;> cases hs
    exact List.prefix_rfl
  | lock t =>
    simp only [step] at hs
    split at hs
    · obtain ⟨c, -, rfl⟩ := Option.map_eq_some_iff.mp hs
      exact List.prefix_rfl
    · cases hs
  | work t closed r =>
    simp only [step] at hs
    split at hs
    · obtain ⟨⟨s, c⟩, hw, rfl⟩ := Option.map_eq_some_iff.mp hs
      exact deleted_of_work hw
    · cases hs
  | unlock t =>
    simp only [step] at hs
    split at hs <;> cases hs
    exact List.prefix_rfl

/-- A connection is idle, lent to one caller or deleted, and once deleted it never comes back. -/
theorem lends_once (h : ReachIf step Excludes (new maxSize) p) :
    p.state.connList.Nodup ∧ p.lent.Nodup ∧
    (∀ t, ∀ k ∈ p.lentTo t, k ∉ p.state.connList) ∧
    (∀ t u k, k ∈ p.lentTo t → k ∈ p.lentTo u → t = u) ∧
    ∀ k ∈ p.state.deleted, ∀ p', ReachIf step Excludes p p' →
      k ∉ p'.state.connList ∧ ∀ t, k ∉ p'.lentTo t := by
  have gone : ∀ {p : Pool ι K}, ReachIf step Excludes (new maxSize) p → ∀ k ∈ p.state.deleted,
      k ∉ p.state.connList ∧ ∀ t, k ∉ p.lentTo t := by
    intro p hp k hk
    obtain ⟨t, ht, idle, gone, lent⟩ := lies hp
    simpa only [idle, lent] using (apart_of_reach ht).gone k (gone ▸ hk)
  obtain ⟨t, ht, idle, -, lent⟩ := lies h
  have apart := apart_of_reach ht
  refine ⟨idle ▸ apart.idle, ?_, ?_, ?_, ?_⟩
  · rw [lent_eq lent]
    exact apart.lent
  · simpa only [idle, lent] using apart.not_idle
  · simpa only [lent] using apart.one
  · exact fun k hk p' hp' => gone (h.trans hp') k ((deleted_of_reach hp').subset hk)

theorem lends_once_of_two :
    ∃ p : Pool (Fin 2) Nat, (p.state.deleted = [1] ∧ p.lentTo 1 = {2}) ∧
      p.state.connList.Nodup ∧ p.lent.Nodup ∧
      (∀ t, ∀ k ∈ p.lentTo t, k ∉ p.state.connList) ∧
      (∀ t u k, k ∈ p.lentTo t → k ∈ p.lentTo u → t = u) ∧
      ∀ k ∈ p.state.deleted, ∀ p', ReachIf step Excludes p p' →
        k ∉ p'.state.connList ∧ ∀ t, k ∉ p'.lentTo t := by
  obtain ⟨p, hp, now⟩ := exists_reachIf step Excludes (new 2)
    ([.beside (.initConnection (.connection 1)), .beside .constructed,
        .beside (.call 0 .getConnection), .beside (.call 1 .getConnection), .lock 1] ++
      List.replicate 6 (.work 1 true (.connection 2)))
    (fun p : Pool (Fin 2) Nat => decide (p.state.deleted = [1] ∧ p.lentTo 1 = {2})) (by decide)
  exact ⟨p, of_decide_eq_true now, lends_once hp⟩

/-- Two callers are let in at once and look at the front before either of them removes it. -/
theorem lends_twice : ¬ ∀ p : Pool (Fin 2) Nat, Reach step (new 4) p →
    p.state.connList.Nodup ∧ p.lent.Nodup ∧
    (∀ t, ∀ k ∈ p.lentTo t, k ∉ p.state.connList) ∧
    (∀ t u k, k ∈ p.lentTo t → k ∈ p.lentTo u → t = u) ∧
    ∀ k ∈ p.state.deleted, ∀ p', Reach step p p' →
      k ∉ p'.state.connList ∧ ∀ t, k ∉ p'.lentTo t := by
  intro all
  obtain ⟨p, hp, now⟩ := exists_reach step (new 4)
    ([.beside (.initConnection (.connection 1)), .beside (.initConnection (.connection 2)),
        .beside .constructed, .beside (.call 0 .getConnection), .beside (.call 1 .getConnection),
        .lock 0, .lock 1, .work 0 false .sqlException, .work 0 false .sqlException] ++
      List.replicate 4 (.work 1 false .sqlException) ++
      [.work 0 false .sqlException, .work 0 false .sqlException, .unlock 0, .unlock 1,
        .beside (.ret 0), .beside (.ret 1)])
    (fun p : Pool (Fin 2) Nat => decide (1 ∈ p.lentTo 0 ∧ 1 ∈ p.lentTo 1)) (by decide)
  obtain ⟨first, second⟩ := of_decide_eq_true now
  exact absurd ((all p hp).2.2.2.1 0 1 1 first second) (by decide)

theorem not_lost (h : ReachIf step Excludes (new maxSize) p) (t : ι) :
    p.stage t ≠ some .lost := by
  intro lost
  obtain ⟨s, -, hp⟩ := reduces h
  cases hp with
  | free free => cases (free t).symm.trans lost
  | @inside u op s c inside =>
    by_cases ht : t = u
    · subst ht
      exact inside.midway.not_lost (Option.some.inj (inside.stage.symm.trans lost))
    · cases (inside.alone t ht).symm.trans lost

end Leano.ConnPool.Pool
