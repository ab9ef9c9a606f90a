import Mathlib.Data.List.DropRight

/-! A connection to a database: what its statements do stays in its open transaction until that is
committed, and is durable at once with auto-commit. -/

universe u v

namespace Leano.Lib

structure Session (D : Type u) where
  autoCommit : Bool
  committed : D
  working : D

variable {D : Type u} {U : Type v}

namespace Session

def init (autoCommit : Bool) (d : D) : Session D := ⟨autoCommit, d, d⟩

def exec (s : Session D) (f : D → D) : Session D where
  autoCommit := s.autoCommit
  committed := if s.autoCommit = true then f s.working else s.committed
  working := f s.working

def commit (s : Session D) : Session D := { s with committed := s.working }

end Session

def replay (apply : U → D → D) (us : List U) (d : D) : D := us.foldl (fun d u => apply u d) d

theorem replay_snoc (apply : U → D → D) (us : List U) (u : U) (d : D) :
    replay apply (us ++ [u]) d = apply u (replay apply us d) := by
  simp [replay]

theorem replay_history (us : List U) : replay (fun u h => h ++ [u]) us [] = us := by
  induction us using List.reverseRecOn with
  | nil => rfl
  | append_singleton us u ih => rw [replay_snoc, ih]

end Leano.Lib
