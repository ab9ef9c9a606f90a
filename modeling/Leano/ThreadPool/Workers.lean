import Leano.ThreadPool.Defs
import Leano.SyncQueue.Threads

universe u v

namespace Leano.ThreadPool

open Leano.Lib
open SyncQueue (Evolves InTake)

structure View (T : Type u) where
  pc : WorkerPc T
  phase : Phase (SyncQueue.Op T) (SyncQueue.Res T)
  taken : List T
  calls : List (Option T)
  dropped : List T

namespace WorkerPc

variable {T : Type u}

def outside : WorkerPc T → Bool
  | .loop => true
  | .check => true
  | .sigwait => true
  | _ => false

def inHand : WorkerPc T → List T
  | .test task => task.toList
  | .process task => task.toList
  | _ => []

theorem inHand_of_outside {pc : WorkerPc T} (h : pc.outside = true) : pc.inHand = [] := by
  cases pc <;> first | rfl | cases h

end WorkerPc

namespace View

variable {T : Type u}

inductive Step (ok : Prop) (v : View T) : View T → Prop
  | same : Step ok v v
  | evolve {ph gained} : Evolves v.phase ph gained →
      Step ok v { v with phase := ph, taken := v.taken ++ gained }
  | move {pc} : v.pc.outside = true → pc.outside = true ∨ pc = .exited →
      Step ok v { v with pc := pc }
  | enterTake : v.pc.outside = true → v.phase = .idle →
      Step ok v { v with pc := .take, phase := .ready .take }
  | take {task} : v.pc = .take → v.phase = .returned (.take task) →
      Step ok v { v with pc := .test task, phase := .idle }
  | test {task} : v.pc = .test task → (ok → task ≠ none) →
      Step ok v { v with pc := .process task }
  | drop {task} : v.pc = .test task →
      Step ok v { v with pc := .exited, dropped := v.dropped ++ task.toList }
  | process {task} : v.pc = .process task →
      Step ok v { v with pc := .loop, calls := v.calls ++ [task] }

def Placed (v : View T) : Prop :=
  match v.pc with
  | .take => InTake v.phase
  | _ => v.phase = .idle

def GivesUpOnce (v : View T) : Prop :=
  match v.pc with
  | .exited => v.dropped.length ≤ 1
  | _ => v.dropped = []

structure Accounted (v : View T) : Prop where
  placed : v.Placed
  givesUpOnce : v.GivesUpOnce
  law : v.taken = v.calls.filterMap id ++ v.dropped ++ v.pc.inHand ++ SyncQueue.inHand v.phase

structure Genuine (v : View T) : Prop where
  calls : ∀ task ∈ v.calls, task ≠ none
  process : v.pc ≠ .process none

variable {ok : Prop} {v v' : View T}

theorem Placed.outside (h : v.Placed) (ho : v.pc.outside = true) : v.phase = .idle := by
  cases hp : v.pc <;> simp_all [Placed, WorkerPc.outside]

theorem GivesUpOnce.outside (h : v.GivesUpOnce) (ho : v.pc.outside = true) : v.dropped = [] := by
  cases hp : v.pc <;> simp_all [GivesUpOnce, WorkerPc.outside]

theorem Placed.evolve {ph : Phase (SyncQueue.Op T) (SyncQueue.Res T)} {gained : List T}
    (h : v.Placed) (he : Evolves v.phase ph gained) :
    Placed { v with phase := ph, taken := v.taken ++ gained } := by
  unfold Placed at h ⊢
  cases hp : v.pc with
  | take =>
    rw [hp] at h
    exact he.inTake h
  | _ =>
    rw [hp] at h
    exact (he.idle h).1

theorem Accounted.step (h : v.Accounted) (hs : Step ok v v') : v'.Accounted := by
  obtain ⟨placed, once, law⟩ := h
  cases hs with
  | same => exact ⟨placed, once, law⟩
  | evolve he =>
    refine ⟨placed.evolve he, once, ?_⟩
    simp only [he.inHand_eq, law, List.append_assoc]
  | @move pc ho hpc =>
    have idle := placed.outside ho
    have kept := once.outside ho
    have empty : pc.inHand = [] := by
      rcases hpc with hpc | rfl
      · exact WorkerPc.inHand_of_outside hpc
      · rfl
    refine ⟨?_, ?_, ?_⟩
    · rcases hpc with hpc | rfl
      · cases pc <;> first | exact idle | cases hpc
      · exact idle
    · rcases hpc with hpc | rfl
      · cases pc <;> first | exact kept | cases hpc
      · exact (congrArg List.length kept).le.trans (Nat.zero_le 1)
    · rw [law, empty, WorkerPc.inHand_of_outside ho]
  | enterTake ho hi =>
    refine ⟨.inl rfl, once.outside ho, ?_⟩
    rw [law, WorkerPc.inHand_of_outside ho, hi]
    rfl
  | @take task hp hph =>
    simp only [GivesUpOnce, hp] at once
    refine ⟨rfl, once, ?_⟩
    rw [law, hp, hph]
    cases task <;> simp [WorkerPc.inHand, SyncQueue.inHand]
  | test hp task =>
    simp only [Placed, GivesUpOnce, hp] at placed once
    refine ⟨placed, once, ?_⟩
    rw [law, hp]
    rfl
  | @drop task hp =>
    simp only [Placed, GivesUpOnce, hp] at placed once
    refine ⟨placed, ?_, ?_⟩
    · rw [GivesUpOnce, once]
      cases task <;> simp
    · rw [law, hp, once]
      simp [WorkerPc.inHand]
  | @process task hp =>
    simp only [Placed, GivesUpOnce, hp] at placed once
    refine ⟨placed, once, ?_⟩
    rw [law, hp, once]
    cases task <;> simp [WorkerPc.inHand]

theorem Step.exited (hs : Step ok v v') (h : v.pc = .exited) : v'.pc = .exited := by
  cases hs with
  | same => exact h
  | evolve => exact h
  | move ho => simp [h, WorkerPc.outside] at ho
  | enterTake ho => simp [h, WorkerPc.outside] at ho
  | drop => rfl
  | _ hp => cases h.symm.trans hp

theorem Genuine.step (h : v.Genuine) (hok : ok) (hs : Step ok v v') : v'.Genuine := by
  cases hs with
  | move ho hpc =>
    refine ⟨h.calls, ?_⟩
    rintro rfl
    simp [WorkerPc.outside] at hpc
  | test ht task => exact ⟨h.calls, by simpa using task hok⟩
  | @process task hp =>
    refine ⟨?_, nofun⟩
    have : task ≠ none := fun ht => h.process (ht ▸ hp)
    simpa [or_imp, forall_and] using ⟨h.calls, this⟩
  | same => exact h
  | evolve => exact ⟨h.calls, h.process⟩
  | _ => exact ⟨h.calls, nofun⟩

theorem Accounted.rest (h : v.Accounted) :
    (v.dropped ++ v.pc.inHand ++ SyncQueue.inHand v.phase).length ≤ 1 := by
  obtain ⟨placed, once, -⟩ := h
  unfold Placed at placed
  unfold GivesUpOnce at once
  cases hp : v.pc <;> simp only [hp] at placed once
  case take => simpa [once, WorkerPc.inHand] using SyncQueue.inHand_length_of_inTake placed
  case test task => cases task <;> simp [once, placed, WorkerPc.inHand, SyncQueue.inHand]
  case process task => cases task <;> simp [once, placed, WorkerPc.inHand, SyncQueue.inHand]
  case exited => simpa [placed, WorkerPc.inHand, SyncQueue.inHand] using once
  all_goals simp [once, placed, WorkerPc.inHand, SyncQueue.inHand]

theorem map_some_filterMap {tasks : List (Option T)} (h : ∀ task ∈ tasks, task ≠ none) :
    (tasks.filterMap id).map some = tasks := by
  induction tasks with
  | nil => rfl
  | cons task tasks ih =>
    obtain ⟨head, tail⟩ := List.forall_mem_cons.mp h
    cases task with
    | none => exact absurd rfl head
    | some x => simpa using ih tail

theorem Genuine.calls_first (h : v.Genuine) (ha : v.Accounted) :
    ∃ rest, v.taken.map some = v.calls ++ rest ∧ rest.length ≤ 1 := by
  refine ⟨_, ?_, (List.length_map some).trans_le ha.rest⟩
  rw [ha.law]
  simp only [List.map_append, map_some_filterMap h.calls, List.append_assoc]

end View

end Leano.ThreadPool
