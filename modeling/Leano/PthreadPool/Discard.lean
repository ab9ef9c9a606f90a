import Leano.PthreadPool.Stages

universe u v

namespace Leano.PthreadPool

open Leano.Lib

variable {n : Nat} {C : Type v} {M : Type u}

/-- `for (size_t i = ..; i < queue_b.size(); ++i)`: what it deletes, and what it leaves. -/
def discard : Nat → List M → List M × List M
  | _, [] => ([], [])
  | i, qMsg :: rest =>
    if i < rest.length + 1 then
      let (deleted, queueB) := discard (i + 1) rest
      (qMsg :: deleted, queueB)
    else ([], qMsg :: rest)

theorem discard_eq (i : Nat) (queueB : List M) :
    discard i queueB = queueB.splitAt ((queueB.length - i + 1) / 2) := by
  rw [List.splitAt_eq]
  induction queueB generalizing i with
  | nil => simp [discard]
  | cons qMsg rest ih =>
    rw [discard, List.length_cons, ih]
    split
    case isTrue more =>
      have half : (rest.length + 1 - i + 1) / 2 = (rest.length - (i + 1) + 1) / 2 + 1 := by omega
      rw [half]
      rfl
    case isFalse =>
      have none : (rest.length + 1 - i + 1) / 2 = 0 := by omega
      rw [none]
      rfl

theorem discard_all_iff (queueB : List M) :
    (discard 0 queueB).2 = [] ↔ queueB.length ≤ 1 := by
  rw [discard_eq, List.splitAt_eq, List.drop_eq_nil_iff]
  omega

theorem discard_short {queueB : List M} (short : queueB.length ≤ 1) :
    (discard 0 queueB).1 = queueB := by
  rw [discard_eq, List.splitAt_eq, List.take_of_length_le]
  omega

variable [DecidableEq C] [DecidableEq M] {debug : Bool} {s : Pool n C M}

def Discards (s : Pool n C M) : Prop :=
  (∀ m ∈ s.queueB, (s.deleted.map Prod.snd ++ (discard 0 s.queueB).1).count m = 1) ∧
    (discard 0 s.queueB).2 = []

theorem not_deleted_of_queued (h : Reach (step debug) Pool.init s) {m : M} (hm : m ∈ s.queueB) :
    s.queueB.count m = 1 ∧ (s.deleted.map Prod.snd).count m = 0 := by
  obtain ⟨ch, hr⟩ := reach_represents h
  have submitted : m ∈ s.submitted := hr.law ▸ List.mem_append_right _ hm
  have queued := List.count_pos_iff.mpr hm
  have once := count_once h submitted
  have done := count_executed h m
  omega

/-- Whatever is queued when the workers have been joined, or at any other time: the loop discards it
exactly if that is one task at most. -/
theorem discards_iff (h : Reach (step debug) Pool.init s) :
    Discards s ↔ s.queueB.length ≤ 1 := by
  rw [Discards, discard_all_iff]
  refine and_iff_right_of_imp fun short m hm => ?_
  obtain ⟨queued, deleted⟩ := not_deleted_of_queued h hm
  rw [List.count_append, discard_short short, deleted, queued]

theorem discards_of_one : ∃ s : Pool 1 (Fin 1) Nat,
    (s.client 0 = .joined ∧ s.queueB = [7]) ∧ (Discards s ↔ s.queueB.length ≤ 1) := by
  obtain ⟨s, hs, hp⟩ := exists_reach (step true) Pool.init
    [.start, .start, .start, .start, .start, .add 0 7, .client 0 none, .client 0 none,
      .client 0 none, .client 0 none, .client 0 none, .client 0 none, .destory 0, .client 0 none,
      .client 0 none, .client 0 none, .client 0 none, .work 0, .work 0, .work 0, .work 0,
      .client 0 none, .client 0 none]
    (fun s : Pool 1 (Fin 1) Nat => decide (s.client 0 = .joined ∧ s.queueB = [7])) (by decide)
  exact ⟨s, of_decide_eq_true hp, discards_iff hs⟩

/-- Of two tasks the second stays. -/
theorem second_kept : ∃ s : Pool 1 (Fin 1) Nat, Reach (step true) Pool.init s ∧
    s.client 0 = .joined ∧ s.queueB = [7, 8] ∧ discard 0 s.queueB = ([7], [8]) ∧ ¬ Discards s := by
  obtain ⟨s, hs, hp⟩ := exists_reach (step true) Pool.init
    [.start, .start, .start, .start, .start, .add 0 7, .client 0 none, .client 0 none,
      .client 0 none, .client 0 none, .client 0 none, .client 0 none, .add 0 8, .client 0 none,
      .client 0 none, .client 0 none, .client 0 none, .client 0 none, .client 0 none, .destory 0,
      .client 0 none, .client 0 none, .client 0 none, .client 0 none, .work 0, .work 0, .work 0,
      .work 0, .client 0 none, .client 0 none]
    (fun s : Pool 1 (Fin 1) Nat => decide (s.client 0 = .joined ∧ s.queueB = [7, 8])) (by decide)
  obtain ⟨joined, queued⟩ := of_decide_eq_true hp
  refine ⟨s, hs, joined, queued, by rw [queued]; rfl, ?_⟩
  rintro ⟨-, none⟩
  rw [queued] at none
  cases none

end Leano.PthreadPool
