import Leano.Lib.Heap
import Leano.Lib.Run
import Mathlib.Data.Int.Order.Basic

/-! What the `ThreadPool` object allocates and frees over the calls its user makes one after another
and its destructor. Only what this depends on is here: the queue is not. -/

namespace Leano.PthreadPool

open Leano.Lib

structure CPool where
  object : Nat
  shutdown : Int
  maxThreadNum : Int

/-- The constructor leaves `threadid` unset; `workers` are the threads created and not joined, and
`codes` is what `pool_destory` has returned. -/
structure Life where
  heap : Heap
  pool : Option CPool
  threadid : Option Nat
  workers : Nat
  codes : List Int

inductive Call where
  | start (maxThreadNum : Int)
  | poolAddWorker
  | poolDestory
  deriving DecidableEq

namespace Life

def init : Life where
  heap := Heap.empty.make
  pool := some ⟨0, 0, 0⟩
  threadid := none
  workers := 0
  codes := []

def start (s : Life) (n : Int) : Option Life :=
  s.pool.map fun p =>
    if n < 0 then { s with pool := some { p with maxThreadNum := n, shutdown := 0 } }
    else
      { s with
        heap := s.heap.make
        pool := some { p with maxThreadNum := n, shutdown := 0 }
        threadid := some s.heap.made
        workers := s.workers + n.toNat }

def poolAddWorker (s : Life) : Option Life := s.pool.map fun _ => s

def poolDestory (s : Life) : Option Life := do
  let p ← s.pool
  if p.shutdown = 1 then some { s with codes := s.codes ++ [-1] }
  -- `i < max_thread_num` compares as `size_t`: the joins run off the array
  else if p.maxThreadNum < 0 then none
  else
    let k ← s.threadid
    let heap ← s.heap.free k
    let heap ← heap.free p.object
    some { s with
      heap := heap
      pool := none
      workers := s.workers - p.maxThreadNum.toNat
      codes := s.codes ++ [0] }

def step (s : Life) : Call → Option Life
  | .start n => s.start n
  | .poolAddWorker => s.poolAddWorker
  | .poolDestory => s.poolDestory

def destructor (s : Life) : Option Heap := do
  let heap ← s.pool.elim (some s.heap) fun p => s.heap.free p.object
  let k ← s.threadid
  heap.free k

end Life

def Call.allocates : Call → Bool
  | .start n => decide (0 ≤ n)
  | _ => false

/-- The calls and the destructor use nothing that is null, unset or freed, free everything, and a
later `pool_destory` returns -1. -/
def FreesOnce (calls : List Call) : Prop :=
  ∃ s heap, run Life.step Life.init calls = some s ∧ s.destructor = some heap ∧ heap.Clean ∧
    ∀ code ∈ s.codes.tail, code = -1

def LeavesNobody (calls : List Call) : Prop :=
  ∀ s, run Life.step Life.init calls = some s → s.workers = 0

structure Fresh (s : Life) (made : Nat) : Prop where
  pool : ∃ p, s.pool = some p ∧ p.object = 0 ∧ p.shutdown = 0
  heap : s.heap.made = made + 1
  freed : s.heap.freed = []
  threadid : s.threadid = if made = 0 then none else some made
  codes : s.codes = []

structure Spent (s : Life) : Prop where
  pool : s.pool = none
  threadid : ∃ k, s.threadid = some k ∧ k ∈ s.heap.freed

variable {s t : Life} {made : Nat} {c : Call} {calls : List Call}

theorem fresh_init : Fresh Life.init 0 := ⟨⟨_, rfl, rfl, rfl⟩, rfl, rfl, rfl, rfl⟩

namespace Fresh

theorem call (h : Fresh s made) (other : c ≠ .poolDestory) :
    ∃ t, s.step c = some t ∧ Fresh t (made + if c.allocates then 1 else 0) ∧
      (t.workers = 0 ↔ s.workers = 0 ∧ ∀ n, c = .start n → n ≤ 0) := by
  obtain ⟨⟨p, hp, object, shutdown⟩, heap, freed, threadid, codes⟩ := h
  cases c with
  | start n =>
    simp only [Life.step, Life.start, hp, Option.map_some]
    refine ⟨_, rfl, ?_⟩
    by_cases neg : n < 0
    · have none : (Call.start n).allocates = false := decide_eq_false (not_le.mpr neg)
      rw [if_pos neg, none]
      refine ⟨⟨⟨_, rfl, object, rfl⟩, heap, freed, threadid, codes⟩, ?_⟩
      refine ⟨fun zero => ⟨zero, ?_⟩, And.left⟩
      rintro m ⟨⟩
      exact neg.le
    · have some : (Call.start n).allocates = true := decide_eq_true (not_lt.mp neg)
      rw [if_neg neg, some]
      refine ⟨⟨⟨_, rfl, object, rfl⟩, congrArg (· + 1) heap, freed, ?_, codes⟩, ?_⟩
      · rw [if_pos rfl, if_neg (Nat.succ_ne_zero _)]
        exact congrArg _ heap
      · refine Nat.add_eq_zero_iff.trans (and_congr_right fun _ => ?_)
        rw [Int.toNat_eq_zero]
        constructor
        · rintro le m ⟨⟩
          exact le
        · exact fun le => le n rfl
  | poolAddWorker =>
    refine ⟨s, by simp only [Life.step, Life.poolAddWorker, hp, Option.map_some], ?_, ?_⟩
    · exact ⟨⟨p, hp, object, shutdown⟩, heap, freed, threadid, codes⟩
    · exact ⟨fun zero => ⟨zero, nofun⟩, And.left⟩
  | poolDestory => exact absurd rfl other

theorem destory (h : Fresh s made) (hs : s.step .poolDestory = some t) : Spent t := by
  obtain ⟨⟨p, hp, object, shutdown⟩, -⟩ := h
  simp only [Life.step, Life.poolDestory, hp, Option.bind_eq_bind, Option.bind_some] at hs
  rw [if_neg (by rw [shutdown]; decide)] at hs
  split at hs
  case isTrue => cases hs
  case isFalse =>
    obtain ⟨k, hk, hs⟩ := Option.bind_eq_some_iff.mp hs
    obtain ⟨heap, free, hs⟩ := Option.bind_eq_some_iff.mp hs
    obtain ⟨heap', free', hs⟩ := Option.bind_eq_some_iff.mp hs
    cases hs
    obtain ⟨-, -, freed⟩ := Heap.free_cases free
    obtain ⟨-, -, freed'⟩ := Heap.free_cases free'
    exact ⟨rfl, k, hk, by simp [freed', freed]⟩

theorem run (h : Fresh s made) (none : .poolDestory ∉ calls) :
    ∃ t, Lib.run Life.step s calls = some t ∧ Fresh t (made + calls.countP Call.allocates) ∧
      (t.workers = 0 ↔ s.workers = 0 ∧ ∀ n, .start n ∈ calls → n ≤ 0) := by
  induction calls generalizing s made with
  | nil => exact ⟨s, rfl, h, fun zero => ⟨zero, nofun⟩, And.left⟩
  | cons c calls ih =>
    obtain ⟨head, tail⟩ := not_or.mp (List.mem_cons.not.mp none)
    obtain ⟨t, hs, ht, workers⟩ := h.call (Ne.symm head)
    obtain ⟨u, hu, fresh, workers'⟩ := ih ht tail
    refine ⟨u, ?_, ?_, ?_⟩
    · rw [run_cons, hs]
      exact hu
    · rwa [List.countP_cons, Nat.add_comm (calls.countP _), ← Nat.add_assoc]
    · rw [workers', workers, and_assoc]
      refine and_congr_right fun _ => ?_
      constructor
      · rintro ⟨le, rest⟩ n hn
        rcases List.mem_cons.mp hn with rfl | hn
        · exact le n rfl
        · exact rest n hn
      · intro all
        refine ⟨?_, fun n hn => all n (List.mem_cons_of_mem _ hn)⟩
        rintro n rfl
        exact all n List.mem_cons_self

theorem destructor (h : Fresh s made) :
    (∃ heap, s.destructor = some heap ∧ heap.Clean) ↔ made = 1 := by
  obtain ⟨⟨p, hp, object, -⟩, heap, freed, threadid, -⟩ := h
  have live : s.heap.Live p.object := by
    refine ⟨?_, by rw [freed]; exact List.not_mem_nil⟩
    rw [object, heap]
    exact Nat.succ_pos _
  obtain ⟨heap₁, free₁, made₁, freed₁⟩ := Heap.free_of_live live
  simp only [Life.destructor, hp, Option.elim_some, free₁, Option.bind_eq_bind, Option.bind_some]
  cases made with
  | zero =>
    rw [threadid, if_pos rfl]
    exact ⟨nofun, nofun⟩
  | succ m =>
    have live' : heap₁.Live (m + 1) := by
      rw [Heap.Live, made₁, freed₁, heap, object, freed]
      simp
    obtain ⟨heap₂, free₂, made₂, freed₂⟩ := Heap.free_of_live live'
    rw [threadid, if_neg (Nat.succ_ne_zero _), Option.bind_some, free₂]
    have clean : heap₂.Clean ↔ m + 1 = 1 := by
      rw [Heap.clean_iff, made₂, freed₂, made₁, freed₁, heap, freed]
      simp
    rw [← clean]
    exact ⟨fun ⟨_, eq, clean⟩ => Option.some.inj eq ▸ clean, fun clean => ⟨_, rfl, clean⟩⟩

end Fresh

namespace Spent

theorem step (h : Spent s) : s.step c = none := by
  cases c with
  | start n => simp only [Life.step, Life.start, h.pool, Option.map_none]
  | poolAddWorker => simp only [Life.step, Life.poolAddWorker, h.pool, Option.map_none]
  | poolDestory =>
    simp only [Life.step, Life.poolDestory, h.pool, Option.bind_eq_bind, Option.bind_none]

theorem run (h : Spent s) (hs : Lib.run Life.step s calls = some t) : Spent t := by
  cases calls with
  | nil => cases hs; exact h
  | cons c calls =>
    rw [run_cons, h.step] at hs
    cases hs

theorem destructor (h : Spent s) : s.destructor = none := by
  obtain ⟨pool, k, hk, freed⟩ := h
  simp only [Life.destructor, pool, Option.elim_none, hk, Option.bind_eq_bind, Option.bind_some]
  exact Heap.free_of_not_live fun live => live.2 freed

end Spent

theorem spent_of_run (destory : .poolDestory ∈ calls) (h : run Life.step Life.init calls = some s) :
    Spent s := by
  obtain ⟨before, after, rfl, first⟩ := List.eq_append_cons_of_mem destory
  obtain ⟨t, ht, fresh, -⟩ := fresh_init.run first
  rw [run_append] at h
  obtain ⟨t', ht', h⟩ := Option.bind_eq_some_iff.mp h
  cases ht.symm.trans ht'
  obtain ⟨u, hu, h⟩ := Option.bind_eq_some_iff.mp (run_cons ▸ h)
  exact (fresh.destory hu).run h

/-- Everything is freed once exactly if one array is made and `pool_destory` is not called, which
leaves `threadid` dangling; and then no thread is left exactly if none was created. -/
theorem frees_once (calls : List Call) :
    (FreesOnce calls ↔ calls.countP Call.allocates = 1 ∧ .poolDestory ∉ calls) ∧
    (FreesOnce calls ∧ LeavesNobody calls ↔ calls.countP Call.allocates = 1 ∧
      .poolDestory ∉ calls ∧ ∀ n, .start n ∈ calls → n ≤ 0) := by
  by_cases destory : .poolDestory ∈ calls
  · have not : ¬ FreesOnce calls := by
      rintro ⟨s, heap, hs, hd, -⟩
      cases hd.symm.trans (spent_of_run destory hs).destructor
    exact ⟨⟨fun h => absurd h not, fun h => absurd destory h.2⟩,
      ⟨fun h => absurd h.1 not, fun h => absurd destory h.2.1⟩⟩
  · obtain ⟨s, hs, fresh, workers⟩ := fresh_init.run destory
    rw [Nat.zero_add] at fresh
    have frees : FreesOnce calls ↔ calls.countP Call.allocates = 1 := by
      rw [← fresh.destructor]
      constructor
      · rintro ⟨s', heap, hs', hd, clean, -⟩
        cases hs.symm.trans hs'
        exact ⟨heap, hd, clean⟩
      · rintro ⟨heap, hd, clean⟩
        refine ⟨s, heap, hs, hd, clean, ?_⟩
        rw [fresh.codes]
        exact nofun
    have nobody : LeavesNobody calls ↔ ∀ n, .start n ∈ calls → n ≤ 0 := by
      refine Iff.trans ?_ (workers.trans (and_iff_right rfl))
      constructor
      · exact fun h => h s hs
      · intro h s' hs'
        cases hs.symm.trans hs'
        exact h
    rw [frees, nobody]
    exact ⟨(and_iff_left destory).symm, and_congr_right fun _ => (and_iff_right destory).symm⟩

/-- The destructor deletes the array again that `pool_destory` has deleted. -/
theorem not_freesOnce_destory : ¬ FreesOnce [.start 1, .poolDestory] := by
  rintro ⟨s, heap, hs, hd, -⟩
  cases hs
  cases hd

end Leano.PthreadPool
