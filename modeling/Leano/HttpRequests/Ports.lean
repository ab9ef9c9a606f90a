import Leano.HttpRequests.Defs
import Leano.Lib.Last

namespace Leano.HttpRequests

open Leano.Lib

variable {curl : Curl} {s : State curl} {port : Int} {rc : CurlCode}

def State.portOption (s : State curl) : Option Int := s.options.bind Options.port

def State.setPorts (s : State curl) (calls : List (Int × CurlCode)) : State curl :=
  calls.foldl (fun s c => (s.setPort c.1 c.2).2) s

def State.fresh (easy : Bool) (files : Bytes → Option Bytes) : State curl :=
  .init (if easy then some curl.init else none) files

def lastPort (held : Int) (calls : List (Int × CurlCode)) : Int :=
  (last (fun c => some c.1) calls).getD held

/-- The last port that libcurl accepts: a call with the port of the call before it does not get
there. -/
def acceptedPort : Int → List (Int × CurlCode) → Option Int
  | _, [] => none
  | held, (port, rc) :: calls =>
    (acceptedPort port calls).or (if port ≠ held ∧ rc = .ok then some port else none)

section onecall

theorem setPort_port : (s.setPort port rc).2.port = port := by
  unfold State.setPort State.setopt
  split
  case isTrue same => exact same.symm
  case isFalse => cases s.pCurl <;> rfl

theorem setPort_options : (s.setPort port rc).2.options = s.options.map fun o =>
    if port ≠ s.port ∧ rc = .ok then o.set (.port port) else o := by
  unfold State.setPort
  split
  case isTrue same => simp [same]
  case isFalse other =>
    rw [State.options_setopt]
    simp only [other, ne_eq, not_false_eq_true, true_and]
    rfl

theorem setPort_truthful : ((s.setPort port rc).1 = true →
      (s.setPort port rc).2.portOption = some port) ↔
    (port = s.port → s.portOption = some port) := by
  by_cases same : port = s.port
  · rw [State.setPort, if_pos same]
    exact ⟨fun h _ => h rfl, fun h _ => h same⟩
  · refine iff_of_true (fun accepted => ?_) fun held => absurd held same
    rw [State.portOption, setPort_options]
    rw [State.setPort, if_neg same] at accepted
    cases hc : s.pCurl with
    | none =>
      simp only [State.setopt, hc] at accepted
      cases accepted
    | some handle =>
      simp only [State.setopt, hc] at accepted
      simp only [State.options, hc, Option.map_some, Option.bind_some]
      rw [if_pos ⟨same, of_decide_eq_true accepted⟩]
      rfl

end onecall

section manycalls

variable {calls : List (Int × CurlCode)}

theorem setPorts_port : (s.setPorts calls).port = lastPort s.port calls := by
  induction calls generalizing s with
  | nil => rfl
  | cons c calls ih =>
    refine (ih (s := (s.setPort c.1 c.2).2)).trans ?_
    rw [setPort_port, lastPort, lastPort, last_cons]
    cases last (fun c => some c.1) calls <;> rfl

theorem setPorts_portOption : (s.setPorts calls).portOption =
    s.options.bind fun o => (acceptedPort s.port calls).or o.port := by
  induction calls generalizing s with
  | nil => rfl
  | cons c calls ih =>
    refine (ih (s := (s.setPort c.1 c.2).2)).trans ?_
    rw [setPort_port, setPort_options, Option.bind_map]
    refine congrArg s.options.bind (funext fun o => ?_)
    simp only [Function.comp_apply, acceptedPort, Option.or_assoc]
    split
    · rfl
    · rfl

theorem fresh_portOption {easy : Bool} {files : Bytes → Option Bytes} :
    ((State.fresh easy files : State curl).setPorts calls).portOption = some port ↔
      easy = true ∧ acceptedPort 8080 calls = some port := by
  rw [setPorts_portOption]
  cases easy with
  | false => exact iff_of_false (Option.some_ne_none _).symm fun h => Bool.noConfusion h.1
  | true =>
    have none : (curl.options curl.init).port = none := congrArg Options.port curl.options_init
    change (acceptedPort 8080 calls).or (curl.options curl.init).port = some port ↔ _
    rw [none, Option.or_none]
    exact (and_iff_right rfl).symm

end manycalls

/-- `SetPort` tells the truth unless it is called with the port of the call before, or with 8080
first, and that is not what libcurl has accepted last. -/
theorem setPorts_truthful_iff (easy : Bool) (files : Bytes → Option Bytes)
    (calls : List (Int × CurlCode)) :
    (∀ before c after, calls = before ++ c :: after →
      let s : State curl := (State.fresh easy files).setPorts before
      (s.setPort c.1 c.2).1 = true → (s.setPort c.1 c.2).2.portOption = some c.1) ↔
    ∀ before c after, calls = before ++ c :: after →
      c.1 = lastPort 8080 before → easy = true ∧ acceptedPort 8080 before = some c.1 := by
  refine forall₄_congr fun before c after _ => ?_
  rw [setPort_truthful, setPorts_port, fresh_portOption]
  rfl

/-- A first call with 8080 is not sent, and a second call with a port that was rejected is not
either. -/
theorem setPort_untruthful :
    let s : State Curl.plain := State.fresh true fun _ => none
    ((s.setPort 8080 .ok).1 = true ∧ (s.setPort 8080 .ok).2.portOption = none) ∧
    let t := s.setPorts [(70000, .badFunctionArgument)]
    (t.setPort 70000 .badFunctionArgument).1 = true ∧
      (t.setPort 70000 .badFunctionArgument).2.portOption = none := by
  exact ⟨⟨rfl, rfl⟩, rfl, rfl⟩

end Leano.HttpRequests
