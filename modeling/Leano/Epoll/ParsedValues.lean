import Leano.Epoll.Request

namespace Leano.Epoll

open Leano.Lib

def trim (s : List UInt8) : List UInt8 :=
  ((s.dropWhile (· ∈ blanks)).reverse.dropWhile (· ∈ blanks)).reverse

def headerValue (line : List UInt8) : List UInt8 := trim ((line.dropWhile (· ≠ 58)).drop 1)

def lastValue (name : List UInt8) (headers : List (List UInt8)) : Option (List UInt8) :=
  (headers.filter (startsWith name)).getLast?.map headerValue

/-- The tokens and values of an HTTP request fit with a terminator. -/
structure Request.Terminated (r : Request) : Prop where
  method : r.method.length < 8
  uri : r.uri.length < 128
  version : r.version.length < 16
  colon : ∀ h ∈ r.headers, 58 ∈ h
  headers : ∀ h ∈ r.headers, ∀ hit ∈ named h, (headerValue h).length < hit.1.size

/-- The fields hold what the request says. -/
structure Exact (r : Request) (f : Fields) : Prop where
  method : cstr f.method = r.method
  uri : cstr f.uri = r.uri
  version : cstr f.version = r.version
  host : ∀ v ∈ lastValue hostName r.headers, cstr f.host = v
  accept : ∀ v ∈ lastValue acceptName r.headers, cstr f.accept = v
  conn : ∀ v ∈ lastValue connectionName r.headers, cstr f.conn = v

theorem offset_of_headerDest {line : List UInt8} {hit : Dest × Nat}
    (h : headerDest line = .ok (some hit)) : Dest.host.offset ≤ hit.1.offset := by
  obtain ⟨host, -, h⟩ := bind_eq_ok h
  cases host with
  | true => cases h; decide
  | false =>
    obtain ⟨accept, -, h⟩ := bind_eq_ok h
    cases accept with
    | true => cases h; decide
    | false =>
      obtain ⟨conn, -, h⟩ := bind_eq_ok h
      cases conn with
      | true => cases h; decide
      | false => cases h

namespace Parse

variable {p q : Parse} {e : Int} {x : Bool} {c : WebConnection} {d : Dest}

theorem get_copy {k : Copy} {n : Nat} {pc : ParsePc}
    (h : d.offset + d.size ≤ k.dest.offset) : (p.copy x k n pc).conn.get d = p.conn.get d := by
  unfold copy
  split
  · change (p.conn.strncpy _ _ _).get d = _
    rw [get_strncpy]
    exact overwrite_before h
  · rfl

section kept

variable (before : d.offset + d.size ≤ Dest.host.offset)
include before

theorem get_header {len : Int} {n : Nat} {pc : ParsePc} :
    (p.header x len n pc).conn.get d = p.conn.get d := by
  unfold header
  split
  · rfl
  · rfl
  case h_3 dest off hit => exact get_copy (before.trans (offset_of_headerDest hit))

theorem get_head : (p.head e x).conn.get d = p.conn.get d := by
  unfold head
  split
  · rfl
  · dsimp only
    split
    · rfl
    · exact get_header before
  · split
    · rfl
    · exact get_header before

theorem get_of_reach (hp : p.pc = .head) (h : Reach (step e) p q) :
    (q.pc = .head ∨ q.pc = .body ∨ q.pc = .lost) ∧ q.conn.get d = p.conn.get d := by
  let I (q : Parse) := (q.pc = .head ∨ q.pc = .body ∨ q.pc = .lost) ∧ q.conn.get d = p.conn.get d
  refine h.invariant (I := I) ⟨.inl hp, rfl⟩ ?_
  rintro q x t - ⟨head | ended, same⟩ - hs
  · rw [step, head] at hs
    cases hs
    exact ⟨head_pc.elim (fun body => .inr (.inl body)) fun h =>
      h.elim (fun lost => .inr (.inr lost)) fun next => .inl next.1, (get_head before).trans same⟩
  · cases (stuck_iff.mpr (ended.imp_right .inr) x).symm.trans hs

end kept

theorem get_copied_behind {k : Copy} {n : Nat} {pc : ParsePc} {i : Fin k.dest.size}
    (h : k.count.toNat ≤ i) : (p.copied k n pc).conn.get k.dest i = p.conn.get k.dest i := by
  change (p.conn.strncpy _ _ _).get k.dest i = _
  rw [get_strncpy, overwrite, if_neg (by omega)]

section values

variable {r : Request} {after : List UInt8}

theorem get_of_body (buf : c.querybuf = r.text ++ after) (hc : c.queryStartIndex = 0)
    (fits : r.Terminated) (h : Reach (step e) (start c) p) (hp : p.pc = .body)
    (before : d.offset + d.size ≤ Dest.host.offset) :
    p.conn.get d = (called c r).conn.get d := by
  have leads := leads_called (e := e) buf hc fits.method.le fits.uri.le fits.version
  have reach := leads.reach_of_stuck h (stuck_iff.mpr (.inl hp))
  exact (get_of_reach before rfl reach).2

theorem exists_body (buf : c.querybuf = r.text ++ after) (hc : c.queryStartIndex = 0)
    (fits : r.Terminated) : ∃ p, Reach (step e) (start c) p ∧ p.pc = .body := by
  have line : Leads (step e) (fun x => x = true) (start c) (called c r) :=
    (leads_called buf hc fits.method.le fits.uri.le fits.version).weaken fun _ _ => trivial
  obtain ⟨p, lines, worked⟩ : ∃ p, Leads (step e) (fun x => x = true) (called c r) p ∧
      Worked r.headers (called c r) p :=
    leads_head rfl (called_rest buf) r.headers_clean fun _ _ _ _ => .inr fun _ returns => returns
  have leads := line.trans lines
  have run : ReachIf (step e) (fun _ x => x = true) (start c) p := leads.reachIf (by rfl)
  exact ⟨p, run.reach, worked.pc⟩

theorem cstr_version_ne (buf : c.querybuf = r.text ++ after) (hc : c.queryStartIndex = 0)
    (fits : r.Terminated) (h : Reach (step e) (start c) p) (hp : p.pc = .body) :
    cstr p.conn.version ≠ r.version := by
  have starts := called_version (c := c) buf fits.version
  rw [← get_of_body buf hc fits h hp (by decide)] at starts
  have nul : 0 ∉ r.version ++ [13] := by simp [r.version_clean.nul]
  intro exact
  have long := (prefix_cstr starts nul).length_le
  change _ ≤ (cstr p.conn.version).length at long
  rw [exact, List.length_append, List.length_singleton] at long
  omega

theorem cstr_method_iff (buf : c.querybuf = r.text ++ after) (hc : c.queryStartIndex = 0)
    (fits : r.Terminated) (h : Reach (step e) (start c) p) (hp : p.pc = .body) :
    cstr p.conn.method = r.method ↔ c.method ⟨r.method.length, fits.method⟩ = 0 := by
  have same : p.conn.method = (called c r).conn.get .method :=
    get_of_body buf hc fits h hp (d := .method) (by decide)
  have starts : r.method <+: List.ofFn p.conn.method :=
    same ▸ called_method buf fits.method.le fits.uri.le fits.version
  have next : p.conn.method ⟨r.method.length, fits.method⟩ =
      c.method ⟨r.method.length, fits.method⟩ := by
    rw [same, called, get_copied_of_fits fits.version (by decide),
      get_copied_of_fits fits.uri.le (by decide)]
    exact get_copied_behind (k := ⟨.method, 0, r.method.length⟩) le_rfl
  rw [cstr_eq_iff starts r.method_clean.nul fits.method, next]

theorem cstr_uri_iff (buf : c.querybuf = r.text ++ after) (hc : c.queryStartIndex = 0)
    (fits : r.Terminated) (h : Reach (step e) (start c) p) (hp : p.pc = .body) :
    cstr p.conn.uri = r.uri ↔ c.uri ⟨r.uri.length, fits.uri⟩ = 0 := by
  have same : p.conn.uri = (called c r).conn.get .uri :=
    get_of_body buf hc fits h hp (d := .uri) (by decide)
  have starts : r.uri <+: List.ofFn p.conn.uri := same ▸ called_uri buf fits.uri.le fits.version
  have next : p.conn.uri ⟨r.uri.length, fits.uri⟩ = c.uri ⟨r.uri.length, fits.uri⟩ := by
    rw [same, called, get_copied_of_fits fits.version (by decide)]
    refine (get_copied_behind (k := ⟨.uri, r.method.length + 1, r.uri.length⟩) le_rfl).trans ?_
    have ne : Dest.uri ≠ Dest.method := by decide
    exact congrFun (get_copied_of_fits fits.method.le ne) _
  rw [cstr_eq_iff starts r.uri_clean.nul fits.uri, next]

/-- No request is parsed to exactly what it says. -/
theorem never_exact (buf : c.querybuf = r.text ++ after) (hc : c.queryStartIndex = 0)
    (fits : r.Terminated) : (∃ p, Reach (step e) (start c) p ∧ p.pc = .body) ∧
      ∀ p, Reach (step e) (start c) p → p.pc = .body → ¬ Exact r p.conn.toFields :=
  ⟨exists_body buf hc fits, fun _ h hp exact => cstr_version_ne buf hc fits h hp exact.version⟩

theorem never_exact_of_get : (∃ p, Reach (step 0) (start getConnection) p ∧ p.pc = .body) ∧
    ∀ p, Reach (step 0) (start getConnection) p → p.pc = .body →
      ¬ Exact getRequest p.conn.toFields :=
  never_exact (r := getRequest) (c := getConnection) rfl rfl
    ⟨by decide, by decide, by decide, by decide, by decide⟩

theorem not_exact : ¬ ∀ (e : Int) (r : Request) (c : WebConnection) (after : List UInt8),
    c.querybuf = r.text ++ after → c.queryStartIndex = 0 → r.Terminated →
    ∀ p, Reach (step e) (start c) p → p.pc = .body → Exact r p.conn.toFields := by
  intro all
  have fits : getRequest.Terminated := ⟨by decide, by decide, by decide, by decide, by decide⟩
  have buf : getConnection.querybuf = getRequest.text ++ ([98, 99] ++ List.replicate 8 255) := rfl
  obtain ⟨p, reach, hp⟩ := exists_body (e := 0) buf rfl fits
  have exact := all 0 getRequest getConnection _ buf rfl fits p reach hp
  exact cstr_version_ne buf rfl fits reach hp exact.version

end values

end Parse

end Leano.Epoll
