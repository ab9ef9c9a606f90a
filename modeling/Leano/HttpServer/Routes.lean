import Mathlib.Data.List.Induction
import Mathlib.Logic.Function.Basic

/-! The registration of handlers in `src/http_server.cpp`. Both calls test and fill one map keyed by
the URL alone, and the URL is moved from between the two. -/

universe u

namespace Leano.HttpServer

inductive Method where
  | get
  | post
  deriving DecidableEq

structure Route (H : Type u) where
  method : Method
  url : String
  handler : H
  deriving DecidableEq

structure State (H : Type u) where
  handlerMap : String → Option H
  app : List (Route H)

namespace State

variable {H : Type u}

def init : State H := ⟨fun _ => none, []⟩

def insert (s : State H) (url : String) (handler : H) : State H :=
  match s.handlerMap url with
  | some _ => s
  | none => { s with handlerMap := Function.update s.handlerMap url (some handler) }

/-- `route_dynamic(std::string&&)` with the handler: `copies` is whether it leaves its argument as
it is, or else empty. A rule is for GET unless `methods` says otherwise. -/
def routeDynamic (s : State H) (copies : Bool) (r : Route H) : String × State H :=
  (if copies = true then r.url else "", { s with app := s.app ++ [r] })

def addHandler (s : State H) (copies : Bool) (r : Route H) : State H :=
  match s.handlerMap r.url with
  | some _ => s
  | none =>
    let (url, s) := s.routeDynamic copies r
    s.insert url r.handler

def addPostHandler (s : State H) (copies : Bool) (url : String) (handler : H) : State H :=
  s.addHandler copies ⟨.post, url, handler⟩

def addGetHandler (s : State H) (copies : Bool) (url : String) (handler : H) : State H :=
  s.addHandler copies ⟨.get, url, handler⟩

def call (s : State H) (copies : Bool) (r : Route H) : State H :=
  match r.method with
  | .post => s.addPostHandler copies r.url r.handler
  | .get => s.addGetHandler copies r.url r.handler

def calls (copies : Bool) (rs : List (Route H)) : State H :=
  rs.foldl (fun s r => s.call copies r) init

end State

variable {H : Type u}

def Route.matches (method : Method) (url : String) (r : Route H) : Bool :=
  decide (r.method = method ∧ r.url = url)

/-- One route for each method and URL that was asked for, with the handler of the first call, and an
entry of the map for each of the URLs. -/
structure Faithful (rs : List (Route H)) (s : State H) : Prop where
  routes : ∀ method url, s.app.filter (Route.matches method url) =
    (rs.find? (Route.matches method url)).toList
  entries : ∀ url, (s.handlerMap url).isSome ↔ ∃ r ∈ rs, r.url = url

def Registrable (copies : Bool) (rs : List (Route H)) : Prop :=
  (∀ r ∈ rs, ∀ r' ∈ rs, r.url = r'.url → r.method = r'.method) ∧
    (copies = true ∨ ∀ r ∈ rs, r.url = "")

namespace State

variable {s : State H} {r : Route H} {rs : List (Route H)} {copies : Bool}

theorem call_eq (s : State H) (copies : Bool) (r : Route H) : s.call copies r =
    s.addHandler copies r := by
  obtain ⟨method, url, handler⟩ := r
  cases method <;> rfl

theorem calls_snoc (copies : Bool) (rs : List (Route H)) (r : Route H) :
    calls copies (rs ++ [r]) = (calls copies rs).addHandler copies r := by
  rw [← call_eq]
  exact List.foldl_append

theorem addHandler_of_some (h : s.handlerMap r.url ≠ none) : s.addHandler copies r = s := by
  unfold addHandler
  split
  case h_1 => rfl
  case h_2 none => exact absurd none h

theorem addHandler_copies (h : s.handlerMap r.url = none) : s.addHandler true r =
    ⟨Function.update s.handlerMap r.url (some r.handler), s.app ++ [r]⟩ := by
  simp [addHandler, routeDynamic, insert, h]

theorem addHandler_empty (h : r.url = "") : s.addHandler copies r = s.addHandler true r := by
  unfold addHandler routeDynamic
  rw [h, ite_self, ite_self]

theorem calls_empty (h : ∀ r ∈ rs, r.url = "") : calls copies rs = calls true rs := by
  induction rs using List.reverseRecOn with
  | nil => rfl
  | append_singleton rs r ih =>
    rw [List.forall_mem_append, List.forall_mem_singleton] at h
    rw [calls_snoc, calls_snoc, ih h.1, addHandler_empty h.2]

end State

def first (url : String) (rs : List (Route H)) : Option (Route H) :=
  rs.find? fun r => decide (r.url = url)

section first

variable {rs : List (Route H)} {r : Route H} {method : Method} {url : String}

theorem first_snoc (url : String) : first url (rs ++ [r]) =
    (first url rs).or (if r.url = url then some r else none) := by
  rw [first, List.find?_append, List.find?_singleton]
  by_cases same : r.url = url <;> simp [same, first]

theorem first_of_known (known : first r.url rs ≠ none) (url : String) :
    first url (rs ++ [r]) = first url rs := by
  rw [first_snoc]
  by_cases same : r.url = url
  · subst same
    obtain ⟨r', hr'⟩ := Option.ne_none_iff_exists'.mp known
    rw [hr', Option.some_or]
  · rw [if_neg same, Option.or_none]

theorem first_of_new (new : first r.url rs = none) : first r.url (rs ++ [r]) = some r := by
  rw [first_snoc, new, if_pos rfl, Option.none_or]

theorem first_of_ne {url : String} (other : r.url ≠ url) :
    first url (rs ++ [r]) = first url rs := by
  rw [first_snoc, if_neg other, Option.or_none]

theorem url_of_first (h : first url rs = some r) : r ∈ rs ∧ r.url = url :=
  ⟨List.mem_of_find?_eq_some h, of_decide_eq_true (List.find?_eq_some_iff_append.mp h).1⟩

theorem first_of_mem (h : r ∈ rs) : ∃ r', first r.url rs = some r' := by
  refine Option.isSome_iff_exists.mp (List.find?_isSome.mpr ⟨r, h, ?_⟩)
  exact decide_eq_true rfl

theorem matches_iff : r.matches method url = true ↔ r.method = method ∧ r.url = url :=
  decide_eq_true_iff

theorem find?_of_first (h : first url rs = some r) :
    rs.find? (Route.matches r.method url) = some r := by
  have url := (url_of_first h).2
  rw [first, List.find?_eq_some_iff_append] at h
  obtain ⟨-, before, after, rfl, none⟩ := h
  rw [List.find?_eq_some_iff_append]
  refine ⟨matches_iff.mpr ⟨rfl, url⟩, before, after, rfl, fun r' hr' => ?_⟩
  have other := none r' hr'
  simp only [Bool.not_eq_true', decide_eq_false_iff_not] at other
  simp [Route.matches, other]

end first

namespace State

variable {s : State H} {r : Route H} {rs : List (Route H)} {copies : Bool}

/-- Where calls copy, each URL has the route and the entry of its first call. -/
theorem calls_copies (rs : List (Route H)) (url : String) :
    (calls true rs).handlerMap url = (first url rs).map Route.handler ∧
    ∀ method, (calls true rs).app.filter (Route.matches method url) =
      ((first url rs).filter fun r => decide (r.method = method)).toList := by
  induction rs using List.reverseRecOn generalizing url with
  | nil => exact ⟨rfl, fun _ => rfl⟩
  | append_singleton rs r ih =>
    rw [calls_snoc]
    have entry := (ih r.url).1
    by_cases new : first r.url rs = none
    · rw [new, Option.map_none] at entry
      rw [addHandler_copies entry]
      by_cases same : r.url = url
      · subst same
        rw [first_of_new new]
        refine ⟨Function.update_self _ _ _, fun method => ?_⟩
        rw [List.filter_append, (ih r.url).2 method, new]
        by_cases asked : r.method = method <;> simp [Route.matches, Option.filter_some, asked]
      · rw [first_of_ne same]
        refine ⟨(Function.update_of_ne (Ne.symm same) _ _).trans (ih url).1, fun method => ?_⟩
        rw [List.filter_append, (ih url).2 method]
        simp [Route.matches, same]
    · have known : (calls true rs).handlerMap r.url ≠ none := by
        rw [entry]
        exact fun none => new (Option.map_eq_none_iff.mp none)
      rw [addHandler_of_some known, first_of_known new]
      exact ih url

theorem handlerMap_moves (rs : List (Route H)) {url : String} (h : url ≠ "") :
    (calls false rs).handlerMap url = none := by
  induction rs using List.reverseRecOn with
  | nil => rfl
  | append_singleton rs r ih =>
    rw [calls_snoc]
    unfold addHandler
    split
    case h_1 => exact ih
    case h_2 =>
      simp only [routeDynamic, insert, Bool.false_eq_true, if_false]
      split
      · exact ih
      · exact (Function.update_of_ne h _ _).trans ih

theorem faithful_of_oneMethod
    (one : ∀ r ∈ rs, ∀ r' ∈ rs, r.url = r'.url → r.method = r'.method) :
    Faithful rs (calls true rs) where
  routes method url := by
    rw [(calls_copies rs url).2 method]
    cases known : first url rs with
    | none =>
      rw [Option.filter_none, List.find?_eq_none.mpr]
      intro r hr yes
      have none := List.find?_eq_none.mp known r hr
      exact none (decide_eq_true (matches_iff.mp yes).2)
    | some r =>
      obtain ⟨mem, rfl⟩ := url_of_first known
      by_cases same : r.method = method
      · subst same
        rw [find?_of_first known]
        simp
      · rw [List.find?_eq_none.mpr]
        · simp [same]
        · intro r' hr' yes
          obtain ⟨rfl, url⟩ := matches_iff.mp yes
          exact same (one r mem r' hr' url.symm)
  entries url := by
    rw [(calls_copies rs url).1, Option.isSome_map, first, List.find?_isSome]
    simp

theorem oneMethod_of_faithful (h : Faithful rs (calls true rs)) :
    ∀ r ∈ rs, ∀ r' ∈ rs, r.url = r'.url → r.method = r'.method := by
  have method_of_first : ∀ r ∈ rs, ∀ f, first r.url rs = some f → r.method = f.method := by
    intro r hr f known
    by_contra other
    have routes := h.routes r.method r.url
    rw [(calls_copies rs r.url).2, known] at routes
    have missing : rs.find? (Route.matches r.method r.url) = none := by
      rw [Option.filter_some, if_neg (by simpa using Ne.symm other), eq_comm] at routes
      exact Option.toList_eq_nil_iff.mp routes
    exact List.find?_eq_none.mp missing r hr (matches_iff.mpr ⟨rfl, rfl⟩)
  intro r hr r' hr' same
  obtain ⟨f, known⟩ := first_of_mem hr
  exact (method_of_first r hr f known).trans (method_of_first r' hr' f (same ▸ known)).symm

end State

open State

/-- Registration is faithful exactly where no URL is asked for with two methods and none is moved
away. -/
theorem faithful_iff (copies : Bool) (rs : List (Route H)) :
    Faithful rs (calls copies rs) ↔ Registrable copies rs := by
  constructor
  · intro h
    have kept : copies = true ∨ ∀ r ∈ rs, r.url = "" := by
      cases copies with
      | true => exact .inl rfl
      | false =>
        refine .inr fun r hr => ?_
        by_contra moved
        have entry := (h.entries r.url).mpr ⟨r, hr, rfl⟩
        rw [handlerMap_moves rs moved] at entry
        cases entry
    refine ⟨?_, kept⟩
    obtain rfl | empty := kept
    · exact oneMethod_of_faithful h
    · exact oneMethod_of_faithful (calls_empty empty ▸ h)
  · rintro ⟨one, kept⟩
    obtain rfl | empty := kept
    · exact faithful_of_oneMethod one
    · rw [calls_empty empty]
      exact faithful_of_oneMethod one

/-- A GET handler for a URL that has a POST handler, and one URL that is moved away. -/
theorem not_faithful : ¬ (∀ rs : List (Route Nat), Faithful rs (calls true rs)) ∧
    ¬ ∀ rs : List (Route Nat), Faithful rs (calls false rs) := by
  constructor
  · intro all
    have routes := (all [⟨.post, "/a", 1⟩, ⟨.get, "/a", 2⟩]).routes .get "/a"
    exact absurd routes (by decide)
  · intro all
    have entry := ((all [⟨.get, "/a", 1⟩]).entries "/a").mpr ⟨_, List.mem_singleton_self _, rfl⟩
    exact absurd entry (by decide)

end Leano.HttpServer
