import Leano.Lib.CString
import Leano.Lib.Windows

/-! `myexec` of `src/common.cpp`: the output of a command, read through a buffer of 1024 bytes. What
may throw in a round of its loop does so as the environment says. -/

namespace Leano.Common

open Leano.Lib

abbrev Bytes := List UInt8

def ascii (s : String) : Bytes := s.toList.map Char.toUInt8

def newline : UInt8 := 10

def success : Bytes := ascii "convert to res success"

def progress : Bytes := ascii "progress:"

def find (needle : Bytes) : Bytes → Option Nat
  | [] => if needle = [] then some 0 else none
  | b :: s => if needle.isPrefixOf (b :: s) then some 0 else (find needle s).map (· + 1)

inductive Throw where
  | pushBack
  | later
  deriving DecidableEq

/-- `accesses` are the indices at which `tmp` has been accessed. -/
structure State where
  res : Int
  resvec : List Bytes
  accesses : List Int

inductive Stop where
  | outside
  | caught

def State.access (s : State) (i : Int) : State := { s with accesses := s.accesses ++ [i] }

def State.pushBack (s : State) (tmp : Bytes) : State := { s with resvec := s.resvec ++ [tmp] }

def Inside (i : Int) : Prop := 0 ≤ i ∧ i ≤ 1023

instance (i : Int) : Decidable (Inside i) := inferInstanceAs (Decidable (0 ≤ i ∧ i ≤ 1023))

def chomp (tmp : Bytes) : Bytes := if tmp.getLast? = some newline then tmp.dropLast else tmp

def State.chomp (s : State) (tmp : Bytes) : State :=
  let i : Int := tmp.length - 1
  if tmp.getLast? = some newline then (s.access i).access i else s.access i

def progressThrows (tmp : Bytes) : Bool := (find progress tmp).any fun idx => tmp.length < idx + 10

/-- A round in which `fgets` has read `w`; the string in `tmp` ends at its first NUL, which is the
one behind `w` or one in it. -/
def round (debug : Bool) (thrown : Option Throw) (s : State) (w : Bytes) :
    Except (Stop × State) State :=
  let tmp := beforeNul w
  let s := s.chomp tmp
  if ¬ Inside (tmp.length - 1) then .error (.outside, s)
  else
    let tmp := chomp tmp
    if thrown = some .pushBack then .error (.caught, s)
    else
      let s := s.pushBack tmp
      if thrown = some .later then .error (.caught, s)
      else
        let s := if (find success tmp).isSome then { s with res := 1 } else s
        if debug = true ∧ progressThrows tmp = true then .error (.caught, s) else .ok s

/-- The loop, over what `fgets` reads until it returns null. -/
def rounds (debug : Bool) : (Nat → Option Throw) → State → List Bytes → Except (Stop × State) State
  | _, s, [] => .ok s
  | throws, s, w :: ws =>
    round debug (throws 0) s w >>= fun s => rounds debug (fun n => throws (n + 1)) s ws

def leave : Except (Stop × State) State → Option Int × State
  | .ok s => (some s.res, s)
  | .error (.caught, s) => (some (-1), s)
  | .error (.outside, s) => (none, s)

/-- `pp` is the output of the command, `none` where `popen` fails. -/
def myexec (debug : Bool) (throws : Nat → Option Throw) (pp : Option Bytes) : Option Int × State :=
  match pp with
  | none => (some (-1), ⟨0, [], []⟩)
  | some out => leave (rounds debug throws ⟨0, [], []⟩ (windows 1023 newline out))

theorem find_isSome {needle s : Bytes} : (find needle s).isSome ↔ needle <:+: s := by
  induction s with
  | nil =>
    rw [find, List.infix_nil]
    split
    · simpa
    · simpa
  | cons b s ih =>
    rw [find, List.infix_cons_iff, ← List.isPrefixOf_iff_prefix]
    split
    case isTrue first => simp [first]
    case isFalse first => simp [first, ih]

section rounds

variable {debug : Bool} {thrown : Option Throw} {throws : Nat → Option Throw} {s s' : State}
  {w : Bytes} {ws : List Bytes}

def lineOf (w : Bytes) : Bytes := chomp (beforeNul w)

theorem chomp_resvec (tmp : Bytes) : (s.chomp tmp).resvec = s.resvec := by
  unfold State.chomp
  split <;> rfl

theorem chomp_res (tmp : Bytes) : (s.chomp tmp).res = s.res := by
  unfold State.chomp
  split <;> rfl

theorem chomp_accesses {tmp : Bytes} {i : Int} :
    i ∈ (s.chomp tmp).accesses ↔ i ∈ s.accesses ∨ i = tmp.length - 1 := by
  unfold State.chomp
  split <;> simp [State.access]

structure Adds (ws : List Bytes) (s s' : State) : Prop where
  resvec : s'.resvec = s.resvec ++ ws.map lineOf
  res : s'.res = if ∃ w ∈ ws, success <:+: lineOf w then 1 else s.res

inductive Round (debug : Bool) (thrown : Option Throw) (s : State) (w : Bytes) :
    Except (Stop × State) State → Prop
  | outside : ¬ Inside ((beforeNul w).length - 1) →
      Round debug thrown s w (.error (.outside, s.chomp (beforeNul w)))
  | caught {t} : Inside ((beforeNul w).length - 1) → debug = true ∨ thrown ≠ none →
      t.accesses = (s.chomp (beforeNul w)).accesses → Round debug thrown s w (.error (.caught, t))
  | ok {t} : Inside ((beforeNul w).length - 1) → Adds [w] s t →
      t.accesses = (s.chomp (beforeNul w)).accesses → Round debug thrown s w (.ok t)

theorem adds_found {t : State} (said : t = if (find success (lineOf w)).isSome
      then { (s.chomp (beforeNul w)).pushBack (lineOf w) with res := 1 }
      else (s.chomp (beforeNul w)).pushBack (lineOf w)) :
    Adds [w] s t ∧ t.accesses = (s.chomp (beforeNul w)).accesses := by
  simp only [find_isSome] at said
  subst said
  refine ⟨⟨?_, ?_⟩, ?_⟩
  · split
    · exact congrArg (· ++ [lineOf w]) (chomp_resvec _)
    · exact congrArg (· ++ [lineOf w]) (chomp_resvec _)
  · simp only [List.mem_singleton, exists_eq_left]
    split
    case isTrue => rfl
    case isFalse => exact chomp_res _
  · split
    · rfl
    · rfl

theorem round_cases : Round debug thrown s w (round debug thrown s w) := by
  unfold round
  dsimp only
  split
  case isTrue out => exact .outside out
  case isFalse inside =>
    have inside := not_not.mp inside
    obtain ⟨adds, accesses⟩ := adds_found (s := s) (w := w) rfl
    split
    case isTrue push => exact .caught inside (.inr (by rw [push]; exact Option.some_ne_none _)) rfl
    case isFalse =>
      split
      case isTrue later =>
        exact .caught inside (.inr (by rw [later]; exact Option.some_ne_none _)) rfl
      case isFalse =>
        split
        case isTrue throws => exact .caught inside (.inl throws.1) accesses
        case isFalse => exact .ok inside adds accesses

theorem round_ok (h : round debug thrown s w = .ok s') : Adds [w] s s' := by
  have ends : Round debug thrown s w (.ok s') := h ▸ round_cases
  cases ends with
  | ok _ adds => exact adds

theorem rounds_ok (h : rounds debug throws s ws = .ok s') : Adds ws s s' := by
  induction ws generalizing throws s with
  | nil =>
    cases h
    exact ⟨(List.append_nil _).symm, (if_neg (by simp)).symm⟩
  | cons w ws ih =>
    obtain ⟨u, first, rest⟩ := bind_eq_ok h
    have now := round_ok first
    have later := ih rest
    constructor
    · rw [later.resvec, now.resvec, List.append_assoc]
      rfl
    · rw [later.res, now.res]
      simp only [List.mem_singleton, exists_eq_left, List.exists_mem_cons_iff]
      by_cases said : success <:+: lineOf w
      · simp [said]
      · simp [said]

theorem rounds_error {stop : Stop × State} (h : rounds debug throws s ws = .error stop) :
    ∃ w ∈ ws, ∃ i u, Round debug (throws i) u w (.error stop) := by
  induction ws generalizing throws s with
  | nil => cases h
  | cons w ws ih =>
    rw [rounds] at h
    cases hr : round debug (throws 0) s w with
    | ok u =>
      rw [hr] at h
      obtain ⟨w', hw, i, u, ends⟩ := ih h
      exact ⟨w', List.mem_cons_of_mem _ hw, i + 1, u, ends⟩
    | error stop' =>
      rw [hr] at h
      cases h
      exact ⟨w, List.mem_cons_self, 0, s, hr ▸ round_cases⟩

theorem rounds_inside (h : ∀ w ∈ ws, Inside ((beforeNul w).length - 1)) :
    rounds debug throws s ws ≠ .error (.outside, s') := by
  intro eq
  obtain ⟨w, hw, i, u, ends⟩ := rounds_error eq
  cases ends with
  | outside out => exact out (h w hw)

theorem rounds_plain : rounds false (fun _ => none) s ws ≠ .error (.caught, s') := by
  intro eq
  obtain ⟨w, hw, i, u, ends⟩ := rounds_error eq
  cases ends with
  | caught _ why => exact why.elim Bool.noConfusion fun thrown => thrown rfl

theorem myexec_plain (out : Bytes) : (myexec false (fun _ => none) (some out)).1 ≠ some (-1) := by
  unfold myexec
  dsimp only
  cases hr : rounds false (fun _ => none) ⟨0, [], []⟩ (windows 1023 newline out) with
  | ok s' =>
    have res := (rounds_ok hr).res
    simp only [leave, ne_eq, Option.some.injEq, res]
    split <;> decide
  | error stop =>
    obtain ⟨outside | caught, s'⟩ := stop
    · exact (Option.some_ne_none _).symm
    · exact absurd hr rounds_plain

theorem ok_of_leave (inside : ∀ w ∈ ws, Inside ((beforeNul w).length - 1))
    (quiet : (leave (rounds debug throws s ws)).1 ≠ some (-1)) :
    ∃ s', rounds debug throws s ws = .ok s' := by
  cases hr : rounds debug throws s ws with
  | ok s' => exact ⟨s', rfl⟩
  | error stop =>
    obtain ⟨outside | caught, s'⟩ := stop
    · exact absurd hr (rounds_inside inside)
    · rw [hr] at quiet
      exact absurd rfl quiet

end rounds

end Leano.Common
