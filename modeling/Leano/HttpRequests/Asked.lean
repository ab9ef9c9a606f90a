import Leano.HttpRequests.Defs
import Leano.Lib.Run

namespace Leano.HttpRequests

open Leano.Lib

def Options.plain (o : Options) : Options := { o with httpHeader := none }

def Setting.isHeader : Setting → Bool
  | .httpHeader _ => true
  | _ => false

namespace Call

/-- The settings that a call makes, in that order; `held` is the port that `SetPort` was last called
with. -/
def settings (held : Int) : Call → List Setting
  | .setPort port rc => if port ≠ held ∧ rc = .ok then [.port port] else []
  | .setExecutTimeout nSecond rc => if 0 ≤ nSecond ∧ rc = .ok then [.timeout nSecond] else []
  | .setConnectTimeout nSecond rc =>
    if 0 ≤ nSecond ∧ rc = .ok then [.connectTimeout nSecond] else []
  | .setUserAgent (some agent) rc => if rc = .ok then [.userAgent agent] else []
  | .setResumeFrom lPos rc => if 0 ≤ lPos ∧ rc = .ok then [.resumeFrom lPos] else []
  | .setCookie (some cookie) rc => if rc = .ok then [.cookie cookie] else []
  | .downloadFile (some url) (some _) opened _ =>
    if opened then [.url url, .noProgress false] else [.url url]
  | .post (some url) (some data) _ => [.post, .url url, .postFields data]
  | .postBinary (some url) (some data) nSize _ =>
    [.post, .postFields data, .postFieldSize nSize.toNat, .url url]
  | .get (some url) _ =>
    [.httpGet, .url url, .followLocation true, .sslVerifyPeer false, .sslVerifyHost false]
  | _ => []

def portAfter (held : Int) : Call → Int
  | .setPort port _ => port
  | _ => held

def transfers : Call → Bool
  | .downloadFile (some _) (some _) opened _ => opened
  | .post (some _) (some _) _ => true
  | .postBinary (some _) (some _) _ _ => true
  | .get (some _) _ => true
  | _ => false

end Call

structure Asked where
  options : Options
  port : Int

namespace Asked

def new : Asked := ⟨.fresh, 8080⟩

def next (a : Asked) (c : Call) : Asked :=
  ⟨(c.settings a.port).foldl Options.set a.options, c.portAfter a.port⟩

def transfer (a : Asked) (c : Call) : List Options :=
  if c.transfers then [(a.next c).options] else []

def transfers : Asked → List Call → List Options
  | _, [] => []
  | a, c :: calls => a.transfer c ++ (a.next c).transfers calls

end Asked

variable {curl : Curl} {s t : State curl} {a : Asked} {c : Call} {tr : Transfer}
  {r : Bool × State curl} {setting : Setting} {rc : CurlCode}

structure Holds (s : State curl) (a : Asked) : Prop where
  options : s.options.map Options.plain = some a.options
  port : s.port = a.port

theorem plain_set (o : Options) (other : setting.isHeader = false) :
    (o.set setting).plain = o.plain.set setting := by
  cases setting with
  | httpHeader => cases other
  | _ => rfl

namespace Holds

theorem handle (h : Holds s a) : s.pCurl ≠ none := by
  intro dead
  have options := h.options
  rw [State.options, dead] at options
  cases options

theorem setopt (h : Holds s a) (other : setting.isHeader = false) :
    Holds (s.setopt setting rc).2
      ⟨(if rc = .ok then [setting] else []).foldl Options.set a.options, a.port⟩ where
  options := by
    obtain ⟨o, ho, plain⟩ := Option.map_eq_some_iff.mp h.options
    rw [State.options_setopt, ho, ← plain]
    split
    case isTrue => exact congrArg some (plain_set o other)
    case isFalse => rfl
  port := by
    unfold State.setopt
    cases s.pCurl <;> exact h.port

end Holds

theorem deliver_port {events : List Event} (h : s.deliver events = some r) :
    r.2.port = s.port := by
  induction events generalizing s with
  | nil => cases h; rfl
  | cons e events ih =>
    cases e with
    | progress => exact ih (State.deliver_progress h)
    | chunk c written =>
      have one : ((s.writeCallback c written).2.report c (s.writeCallback c written).1).port =
          s.port := by
        change (s.writeCallback c written).2.port = s.port
        unfold State.writeCallback
        split
        · split <;> rfl
        · rfl
        · rfl
        · rfl
      obtain ⟨-, h⟩ | ⟨-, rfl⟩ := State.deliver_chunk h
      · exact (ih h).trans one
      · exact one

theorem perform_port (h : s.perform tr = some r) : r.2.port = s.port := by
  unfold State.perform at h
  cases ho : s.options with
  | none =>
    rw [ho] at h
    cases h
    rfl
  | some o =>
    rw [ho] at h
    obtain ⟨r', hd, rfl⟩ := Option.map_eq_some_iff.mp h
    have port : r'.2.port = (s.start o).port := deliver_port hd
    exact port

structure Follows (s : State curl) (a : Asked) (c : Call) (t : State curl) : Prop where
  holds : Holds t (a.next c)
  performed : t.performed.map Options.plain = s.performed.map Options.plain ++ a.transfer c

theorem setopt_performed : (s.setopt setting rc).2.performed = s.performed := by
  unfold State.setopt
  cases s.pCurl <;> rfl

namespace Follows

theorem silent (next : Holds t (a.next c)) (none : c.transfers = false)
    (performed : t.performed = s.performed) : Follows s a c t where
  holds := next
  performed := by
    rw [performed, Asked.transfer, none]
    exact (List.append_nil _).symm

theorem setNonneg (h : Holds s a) {n : Int} (other : setting.isHeader = false)
    (settings : c.settings a.port = if 0 ≤ n ∧ rc = .ok then [setting] else [])
    (port : c.portAfter a.port = a.port) (none : c.transfers = false) :
    Follows s a c (s.setNonneg n setting rc).2 := by
  unfold State.setNonneg
  split
  case isTrue negative =>
    refine silent ?_ none rfl
    rw [Asked.next, settings, port, if_neg fun pos => absurd pos.1 (by omega)]
    exact h
  case isFalse pos =>
    refine silent ?_ none setopt_performed
    rw [Asked.next, settings, port]
    simpa [not_lt.mp pos] using h.setopt other

theorem setString (h : Holds s a) {lp : Option Bytes} {setting : Bytes → Setting}
    (other : ∀ str, (setting str).isHeader = false)
    (settings : c.settings a.port =
      (lp.map fun str => if rc = .ok then [setting str] else []).getD [])
    (port : c.portAfter a.port = a.port) (none : c.transfers = false) :
    Follows s a c (s.setString lp setting rc).2 := by
  cases lp with
  | none =>
    refine silent ?_ none rfl
    rw [Asked.next, settings, port]
    exact h
  | some str =>
    refine silent ?_ none setopt_performed
    rw [Asked.next, settings, port]
    exact h.setopt (other str)

theorem perform {u : State curl} (h : Holds s a) (transfers : c.transfers = true)
    (options : u.options = s.options.map ((c.settings a.port).foldl Options.set))
    (plain : ∀ o : Options, ((c.settings a.port).foldl Options.set o).plain =
      (c.settings a.port).foldl Options.set o.plain)
    (port : c.portAfter a.port = a.port) (same : u.port = s.port)
    (performed : u.performed = s.performed) (hp : u.perform tr = some r) :
    Follows s a c r.2 := by
  obtain ⟨o, ho, held⟩ := Option.map_eq_some_iff.mp h.options
  have performs := State.perform_performs hp
  have now : u.options.map Options.plain = some (a.next c).options := by
    rw [options, ho]
    exact congrArg some ((plain o).trans (by rw [held]; rfl))
  refine ⟨⟨performs.options ▸ now, ?_⟩, ?_⟩
  · rw [perform_port hp, same, h.port]
    exact port.symm
  · obtain ⟨o', ho', eq⟩ := Option.map_eq_some_iff.mp now
    rw [performs.performed, performed, ho', Asked.transfer, transfers, List.map_append]
    exact congrArg (_ ++ [·]) eq

end Follows

theorem Holds.setHeader (h : Holds s a) {list : Option Nat} :
    Holds (s.setopt (.httpHeader list) rc).2 a where
  options := by
    obtain ⟨o, ho, plain⟩ := Option.map_eq_some_iff.mp h.options
    rw [State.options_setopt, ho, ← plain]
    split <;> rfl
  port := by
    unfold State.setopt
    cases s.pCurl <;> exact h.port

theorem follows_addHeader (h : Holds s a) {lpKey lpValue : Bytes} {appended : Bool} :
    Follows s a (.addHeader lpKey lpValue appended rc)
      (s.addHeader lpKey lpValue appended rc).2 := by
  unfold State.addHeader
  split
  · exact .silent h rfl rfl
  · let u := s.slistAppend (beforeNul (headerLine lpKey lpValue)) appended
    obtain ⟨pCurl, port, performed⟩ :
        u.pCurl = s.pCurl ∧ u.port = s.port ∧ u.performed = s.performed := by
      simp only [u, State.slistAppend]
      split
      · split <;> exact ⟨rfl, rfl, rfl⟩
      · exact ⟨rfl, rfl, rfl⟩
    have held : Holds u a := by
      refine ⟨?_, port.trans h.port⟩
      rw [State.options, pCurl]
      exact h.options
    exact .silent held.setHeader rfl (setopt_performed.trans performed)

theorem follows_of_step (h : Holds s a) (hs : step s c = some t) : Follows s a c t := by
  cases c with
  | setPort port rc =>
    cases hs
    unfold State.setPort
    split
    case isTrue same =>
      refine .silent ⟨?_, same.symm⟩ rfl rfl
      rw [Asked.next, Call.settings, if_neg fun other => other.1 (same.trans h.port)]
      exact h.options
    case isFalse other =>
      have anew : Holds { s with port := port } ⟨a.options, port⟩ := ⟨h.options, rfl⟩
      refine .silent ?_ rfl setopt_performed
      simpa [Asked.next, Call.settings, Call.portAfter, ← h.port, other] using
        anew.setopt (show (Setting.port port).isHeader = false from rfl)
  | setExecutTimeout nSecond rc =>
    cases hs
    exact .setNonneg h rfl rfl rfl rfl
  | setConnectTimeout nSecond rc =>
    cases hs
    exact .setNonneg h rfl rfl rfl rfl
  | setResumeFrom lPos rc =>
    cases hs
    exact .setNonneg h rfl rfl rfl rfl
  | setUserAgent lpAgent rc =>
    cases hs
    exact .setString h (fun _ => rfl) (by cases lpAgent <;> rfl) rfl rfl
  | setCookie lpCookie rc =>
    cases hs
    exact .setString h (fun _ => rfl) (by cases lpCookie <;> rfl) rfl rfl
  | addHeader =>
    cases hs
    exact follows_addHeader h
  | clearHeaderList =>
    simp only [step, State.clearHeaderList] at hs
    split at hs
    · cases hs
      exact .silent h rfl rfl
    · obtain ⟨lists, -, rfl⟩ := Option.map_eq_some_iff.mp hs
      exact .silent ⟨h.options, h.port⟩ rfl rfl
  | setCallback callback =>
    cases hs
    exact .silent ⟨h.options, h.port⟩ rfl rfl
  | downloadFile lpUrl lpFile opened tr =>
    obtain ⟨r, hr, rfl⟩ := Option.map_eq_some_iff.mp hs
    cases lpUrl with
    | none => cases hr; exact .silent h rfl rfl
    | some url =>
      cases lpFile with
      | none => cases hr; exact .silent h rfl rfl
      | some file =>
        cases opened with
        | true => exact .perform h rfl (State.options_toDownload url) (fun _ => rfl) rfl rfl rfl hr
        | false =>
          cases hr
          refine .silent ⟨?_, h.port⟩ rfl rfl
          obtain ⟨o, ho, plain⟩ := Option.map_eq_some_iff.mp h.options
          change (s.put (.url url)).options.map _ = _
          rw [State.options_put, ho, Asked.next, ← plain]
          rfl
  | post lpUrl lpData tr =>
    obtain ⟨r, hr, rfl⟩ := Option.map_eq_some_iff.mp hs
    obtain ⟨url, data, rfl, rfl, -, hp⟩ | ⟨refused, rfl⟩ := State.checkPost_cases hr
    · exact .perform h rfl (State.options_toPost url data) (fun _ => rfl) rfl rfl rfl hp
    · obtain dead | rfl | rfl := refused
      · exact absurd dead h.handle
      · exact .silent h rfl rfl
      · cases lpUrl <;> exact .silent h rfl rfl
  | postBinary lpUrl lpData nSize tr =>
    obtain ⟨r, hr, rfl⟩ := Option.map_eq_some_iff.mp hs
    obtain ⟨url, data, rfl, rfl, -, hp⟩ | ⟨refused, rfl⟩ := State.checkPost_cases hr
    · exact .perform h rfl (State.options_toPostBinary url data nSize) (fun _ => rfl) rfl rfl rfl hp
    · obtain dead | rfl | rfl := refused
      · exact absurd dead h.handle
      · exact .silent h rfl rfl
      · cases lpUrl <;> exact .silent h rfl rfl
  | get lpUrl tr =>
    obtain ⟨r, hr, rfl⟩ := Option.map_eq_some_iff.mp hs
    cases lpUrl with
    | some url => exact .perform h rfl (State.options_toGet url) (fun _ => rfl) rfl rfl rfl hr
    | none => cases hr; exact .silent h rfl rfl

/-- What every transfer of a history is performed with is what the calls ask for: the other options
than the header list depend neither on what came in nor on how earlier transfers ended. -/
theorem transfers_as_asked {files : Bytes → Option Bytes} {calls : List Call}
    (h : run step (State.init (some curl.init) files) calls = some s) :
    s.performed.map Options.plain = Asked.new.transfers calls := by
  have general : ∀ {s t : State curl} {a : Asked} {calls}, Holds s a → run step s calls = some t →
      t.performed.map Options.plain = s.performed.map Options.plain ++ a.transfers calls := by
    intro s t a calls held hr
    induction calls generalizing s a with
    | nil =>
      cases hr
      exact (List.append_nil _).symm
    | cons c calls ih =>
      obtain ⟨u, hu, hr⟩ := Option.bind_eq_some_iff.mp (run_cons ▸ hr)
      have first := follows_of_step held hu
      rw [ih first.holds hr, first.performed, Asked.transfers, List.append_assoc]
  have fresh : Holds (State.init (some curl.init) files) Asked.new :=
    ⟨congrArg some (congrArg Options.plain curl.options_init), rfl⟩
  exact general fresh h

def cookies : List Call :=
  [.setCookie (some [97]) .ok, .setPort 8080 .ok, .get (some [117]) ⟨[], .ok⟩,
    .setCookie (some [98]) .ok, .setExecutTimeout (-1) .ok, .get (some [118]) ⟨[], .writeError⟩]

theorem transfers_as_asked_of_two : ∃ s : State Curl.plain,
    s.performed.map (fun o => (o.cookie, o.url)) =
      [(some [97], some [117]), (some [98], some [118])] ∧
    s.performed.map Options.plain = Asked.new.transfers cookies := by
  obtain ⟨s, hs, shown⟩ : ∃ s : State Curl.plain,
      run step (State.init (some Curl.plain.init) fun _ => none) cookies = some s ∧
      s.performed.map (fun o => (o.cookie, o.url)) =
        [(some [97], some [117]), (some [98], some [118])] := ⟨_, rfl, rfl⟩
  exact ⟨s, shown, transfers_as_asked hs⟩

end Leano.HttpRequests
