import Leano.Epoll.Overflow

namespace Leano.Epoll

open Leano.Lib

def headText (headers : List (List UInt8)) : List UInt8 :=
  headers.flatMap (· ++ [13, 10]) ++ [13, 10]

structure Request where
  method : List UInt8
  blank : UInt8
  uri : List UInt8
  blank' : UInt8
  version : List UInt8
  headers : List (List UInt8)
  blank_mem : blank ∈ blanks
  blank'_mem : blank' ∈ blanks
  method_clean : Clean (blanks ++ newline) method
  uri_clean : Clean (blanks ++ newline) uri
  version_clean : Clean newline version
  headers_clean : ∀ h ∈ headers, h ≠ [] ∧ Clean newline h

namespace Request

def line (r : Request) : List UInt8 :=
  r.method ++ r.blank :: (r.uri ++ r.blank' :: (r.version ++ [13]))

def text (r : Request) : List UInt8 := r.line ++ 10 :: headText r.headers

theorem length_line (r : Request) :
    r.line.length = r.method.length + 1 + (r.uri.length + 1) + (r.version.length + 1) := by
  simp only [line, List.length_append, List.length_cons, List.length_nil]
  omega

/-- No piece that is copied is longer than its field; a carriage return is copied with it. -/
structure Fits (r : Request) : Prop where
  method : r.method.length ≤ 8
  uri : r.uri.length ≤ 128
  version : r.version.length + 1 ≤ 16
  headers : ∀ h ∈ r.headers, ∀ hit ∈ named (h ++ [13]), h.length + 1 ≤ hit.2 + hit.1.size

end Request

section named

variable {name h l : List UInt8} {hit : Dest × Nat}

theorem length_of_startsWith (cr : toLower 13 ∉ name.map toLower)
    (starts : startsWith name (h ++ [13]) = true) : name.length ≤ h.length := by
  rw [startsWith, List.isPrefixOf_iff_prefix, List.map_append, List.map_singleton,
    List.prefix_concat_iff] at starts
  rcases starts with all | before
  · exact absurd (all ▸ List.mem_append_right _ (List.mem_singleton_self _)) cr
  · simpa using before.length_le

theorem start_le (some : named (h ++ [13]) = some hit) : hit.2 ≤ (h ++ [13]).length := by
  rw [List.length_append, List.length_singleton]
  rcases named_cases some with ⟨starts, rfl⟩ | ⟨starts, rfl⟩ | ⟨starts, rfl⟩
  · exact Nat.succ_le_succ (length_of_startsWith (by decide) starts)
  · exact Nat.succ_le_succ (length_of_startsWith (by decide) starts)
  · exact Nat.succ_le_succ (length_of_startsWith (by decide) starts)

theorem offset_of_named (some : named l = some hit) : Dest.host.offset ≤ hit.1.offset := by
  rcases named_cases some with ⟨-, rfl⟩ | ⟨-, rfl⟩ | ⟨-, rfl⟩ <;> decide

end named

namespace Parse

variable {p q : Parse} {e : Int} {x : Bool} {c : WebConnection} {w r : List UInt8} {d : Dest}
  {pc : ParsePc} {ok : Bool → Prop}

theorem word_of_splits (hs : Splits blanks p.conn.rest w r)
    (fits : w.length ≤ d.size) : p.word x d pc =
      p.copied ⟨d, p.conn.queryStartIndex, w.length⟩
        (p.conn.queryStartIndex + (w.length + 1)) pc := by
  have length := hs.length
  have room := d.size_le_room
  simp only [word, hs.found]
  refine copy_of_returns ⟨Int.natCast_nonneg _, .inl ?_, .inl ?_⟩
  · exact Int.ofNat_le.mpr (fits.trans room)
  · change (w.length : Int) ≤ p.conn.rest.length
    omega

theorem version_of_splits (hs : Splits newline p.conn.querybuf w r)
    (low : p.conn.queryStartIndex ≤ w.length) (high : w.length ≤ p.conn.queryStartIndex + 16) :
    p.version x = p.copied ⟨.version, p.conn.queryStartIndex,
      w.length - p.conn.queryStartIndex⟩ (w.length + 1) .head := by
  have length := hs.length
  simp only [version, hs.found]
  refine copy_of_returns ⟨by simp only; omega, .inl ?_, .inl ?_⟩
  · simp only [Dest.room, Dest.offset]
    omega
  · simp only [List.length_drop]
    omega

theorem get_afterLine (h : d.offset + d.size ≤ Dest.host.offset) :
    (p.afterLine w).conn.get d = p.conn.get d := by
  unfold afterLine
  cases some : named w with
  | none => rfl
  | some hit =>
    change (p.conn.toFields.strncpy _ _ _).get d = _
    rw [get_strncpy]
    exact overwrite_before (h.trans (offset_of_named some))

theorem prefix_copied {k : Copy} {n : Nat} {t : List UInt8}
    (src : p.conn.querybuf.drop k.start = w ++ t) (count : k.count = w.length) (nul : 0 ∉ w)
    (fits : w.length ≤ k.dest.size) : w <+: List.ofFn ((p.copied k n pc).conn.get k.dest) := by
  refine List.prefix_iff_getElem?.mpr fun i hi => ?_
  change (List.ofFn ((p.conn.strncpy k.dest (p.conn.querybuf.drop k.start)
    k.count.toNat).get k.dest))[i]? = _
  have inside : i < k.dest.size := by omega
  rw [List.getElem?_ofFn, dif_pos inside, get_strncpy, src, count, overwrite, if_pos (by simp [hi]),
    beforeNul_append_of_not_mem nul]
  simp [List.getElem?_append_left hi, List.getElem?_eq_getElem hi]

theorem get_copied_of_fits {d' : Dest} {len start n : Nat} (fits : len ≤ d.size) (ne : d' ≠ d) :
    (p.copied ⟨d, start, len⟩ n pc).conn.get d' = p.conn.get d' :=
  get_copied ⟨Int.natCast_nonneg _, Int.ofNat_le.mpr fits⟩ ne

structure Worked (headers : List (List UInt8)) (p q : Parse) : Prop where
  pc : q.pc = .body
  lines : q.lines = p.lines ++ headers.map fun h => some (h ++ [13])
  start : q.conn.queryStartIndex = p.conn.queryStartIndex + (headText headers).length
  fields : ∀ d : Dest, d.offset + d.size ≤ Dest.host.offset → q.conn.get d = p.conn.get d
  contained : (∀ h ∈ headers, Within Dest.size (h ++ [13])) → Contained p → Contained q

theorem leads_head {headers : List (List UInt8)} {after : List UInt8} (hp : p.pc = .head)
    (hr : p.conn.rest = headText headers ++ after)
    (clean : ∀ h ∈ headers, h ≠ [] ∧ Clean newline h)
    (returns : ∀ h ∈ headers, ∀ hit ∈ named (h ++ [13]),
      h.length + 1 ≤ hit.2 + hit.1.room ∨ ∀ x, ok x → x = true) :
    ∃ q, Leads (step e) ok p q ∧ Worked headers p q := by
  induction headers generalizing p with
  | nil =>
    have split : Splits newline p.conn.rest [13] after := by
      rw [hr]
      exact splits_newline (l := [13]) (by decide) (by decide) after
    refine ⟨_, .next (fun x _ => step_last hp split rfl) (.refl _), rfl, by simp [jump], rfl,
      fun _ _ => rfl, fun _ now => now⟩
  | cons h headers ih =>
    obtain ⟨⟨ne, cleanLine⟩, clean⟩ := List.forall_mem_cons.mp clean
    obtain ⟨room, returns⟩ := List.forall_mem_cons.mp returns
    have split : Splits newline p.conn.rest (h ++ [13]) (headText headers ++ after) := by
      have text : p.conn.rest = (h ++ [13]) ++ 10 :: (headText headers ++ after) := by
        rw [hr]
        simp [headText]
      rw [text]
      exact splits_newline (by simp [cleanLine.nul]) (by simp [cleanLine.newline]) _
    have long : (h ++ [13]).length ≠ 1 := by simp [ne]
    obtain ⟨q, leads, worked⟩ := ih afterLine_pc (afterLine_rest split) clean returns
    refine ⟨q, .next (fun x hx => ?_) leads, worked.pc, ?_, ?_, fun d hd => ?_,
      fun within now => ?_⟩
    · refine step_line_of_returns hp split long fun hit some => ⟨start_le some, ?_⟩
      rw [List.length_append, List.length_singleton]
      exact (room hit some).imp_right fun all => all x hx
    · rw [worked.lines, afterLine_lines]
      simp
    · rw [worked.start, afterLine_start]
      simp [headText]
      omega
    · rw [worked.fields d hd, get_afterLine hd]
    · obtain ⟨first, within⟩ := List.forall_mem_cons.mp within
      exact worked.contained within (contained_afterLine now first)

def called (c : WebConnection) (r : Request) : Parse :=
  let uriStart := r.method.length + 1
  let versionStart := uriStart + (r.uri.length + 1)
  (((start c).copied ⟨.method, 0, r.method.length⟩ uriStart .uri).copied
    ⟨.uri, uriStart, r.uri.length⟩ versionStart .version).copied
    ⟨.version, versionStart, (r.version.length + 1 : Nat)⟩
    (versionStart + (r.version.length + 2)) .head

theorem clean_of_subset {accept accept' w : List UInt8} (clean : Clean accept w)
    (sub : accept' ⊆ accept) : Clean accept' w :=
  fun b hb ends => clean b hb (ends.imp_right fun mem => sub mem)

theorem clean_blanks (clean : Clean (blanks ++ newline) w) : Clean blanks w :=
  clean_of_subset clean (List.subset_append_left _ _)

theorem clean_line (clean : Clean (blanks ++ newline) w) : Clean newline w :=
  clean_of_subset clean (List.subset_append_right _ _)

section requestLine

variable {r : Request} {after : List UInt8} (buf : c.querybuf = r.text ++ after)
  (hc : c.queryStartIndex = 0)
include buf hc

omit hc in
theorem splits_method : Splits blanks c.querybuf r.method
    (r.uri ++ r.blank' :: (r.version ++ 13 :: 10 :: headText r.headers) ++ after) := by
  refine ⟨r.blank, r.blank_mem, (ne_of_blank r.blank_mem).1.symm, ?_, clean_blanks r.method_clean⟩
  rw [buf, Request.text, Request.line]
  simp

omit hc in
theorem splits_uri : Splits blanks (c.querybuf.drop (r.method.length + 1)) r.uri
    (r.version ++ 13 :: 10 :: headText r.headers ++ after) := by
  have behind := (splits_method buf).behind
  refine ⟨r.blank', r.blank'_mem, (ne_of_blank r.blank'_mem).1.symm, ?_, clean_blanks r.uri_clean⟩
  rw [behind, List.append_assoc, List.cons_append]

omit hc in
theorem splits_line : Splits newline c.querybuf r.line (headText r.headers ++ after) := by
  have method := clean_line r.method_clean
  have uri := clean_line r.uri_clean
  have blank := ne_of_blank r.blank_mem
  have blank' := ne_of_blank r.blank'_mem
  rw [buf, Request.text, List.append_assoc]
  refine splits_newline ?_ ?_ _
  · simp [Request.line, method.nul, uri.nul, r.version_clean.nul, blank.1, blank'.1]
  · simp [Request.line, method.newline, uri.newline, r.version_clean.newline, blank.2, blank'.2]

theorem leads_called (method : r.method.length ≤ 8) (uri : r.uri.length ≤ 128)
    (version : r.version.length + 1 ≤ 16) :
    Leads (step e) (fun _ => True) (start c) (called c r) := by
  have rest : (start c).conn.rest = c.querybuf := by
    change c.querybuf.drop c.queryStartIndex = _
    rw [hc, List.drop_zero]
  have first := splits_method buf
  rw [← rest] at first
  refine .next (fun x _ => congrArg some (word_of_splits first method)) ?_
  change Leads (step e) _ ((start c).copied ⟨.method, c.queryStartIndex, r.method.length⟩
    (c.queryStartIndex + (r.method.length + 1)) .uri) _
  rw [hc, Nat.zero_add]
  refine .next (fun x _ => congrArg some (word_of_splits (splits_uri buf) uri)) ?_
  have third (p : Parse) (x : Bool) (hp : p.conn.querybuf = c.querybuf)
      (index : p.conn.queryStartIndex = r.method.length + 1 + (r.uri.length + 1)) :
      p.version x = p.copied ⟨.version, p.conn.queryStartIndex, (r.version.length + 1 : Nat)⟩
        (p.conn.queryStartIndex + (r.version.length + 2)) .head := by
    have length := r.length_line
    have count : (r.line.length - p.conn.queryStartIndex : Int) = (r.version.length + 1 : Nat) := by
      omega
    have behind : r.line.length + 1 = p.conn.queryStartIndex + (r.version.length + 2) := by omega
    have split : Splits newline p.conn.querybuf r.line (headText r.headers ++ after) :=
      hp ▸ splits_line buf
    rw [version_of_splits split (by omega) (by omega), count, behind]
  exact .next (fun x _ => congrArg some (third _ x rfl rfl)) (.refl _)

omit hc in
theorem called_rest : (called c r).conn.rest = headText r.headers ++ after := by
  have behind := (splits_line buf).behind
  have length := r.length_line
  have index : r.line.length + 1 =
      r.method.length + 1 + (r.uri.length + 1) + (r.version.length + 2) := by omega
  rw [index] at behind
  exact behind

section fields

variable (method : r.method.length ≤ 8) (uri : r.uri.length ≤ 128)
  (version : r.version.length + 1 ≤ 16)
include version
omit hc

include method uri in
theorem called_method : r.method <+: List.ofFn ((called c r).conn.get .method) := by
  obtain ⟨b, -, -, src, clean⟩ := splits_method buf
  rw [called, get_copied_of_fits version (by decide), get_copied_of_fits uri (by decide)]
  exact prefix_copied src rfl (Clean.nul clean) method

include uri in
theorem called_uri : r.uri <+: List.ofFn ((called c r).conn.get .uri) := by
  obtain ⟨b, -, -, src, clean⟩ := splits_uri buf
  rw [called, get_copied_of_fits version (by decide)]
  exact prefix_copied src rfl (Clean.nul clean) uri

theorem called_version : (r.version ++ [13]) <+: List.ofFn ((called c r).conn.get .version) := by
  have src : c.querybuf.drop (r.method.length + 1 + (r.uri.length + 1)) =
      (r.version ++ [13]) ++ (10 :: headText r.headers ++ after) := by
    have behind := (splits_uri buf).behind
    rw [List.drop_drop] at behind
    rw [behind]
    simp
  have nul : 0 ∉ r.version ++ [13] := by simp [r.version_clean.nul]
  rw [called]
  refine prefix_copied src ?_ nul ?_
  · rw [List.length_append, List.length_singleton]
  · rw [List.length_append, List.length_singleton]
    exact version

end fields

omit buf hc in
theorem contained_called (method : r.method.length ≤ 8) (uri : r.uri.length ≤ 128)
    (version : r.version.length + 1 ≤ 16) : Contained (called c r) := by
  have bounds {d : Dest} {start len : Nat} (fits : len ≤ d.size) :
      (⟨d, start, len⟩ : Copy).InBounds := ⟨Int.natCast_nonneg _, Int.ofNat_le.mpr fits⟩
  have now : Contained (start c) := by simp [Contained, start]
  refine contained_copied (contained_copied (contained_copied now ?_) ?_) ?_
  · exact bounds method
  · exact bounds uri
  · exact bounds version

structure Accepted (e : Int) (r : Request) (c : WebConnection) (p : Parse) : Prop where
  leads : Leads (step e) (fun _ => True) (start c) p
  pc : p.pc = .body
  lines : p.lines = r.headers.map fun h => some (h ++ [13])
  index : p.conn.queryStartIndex = r.text.length
  method : r.method <+: List.ofFn p.conn.method
  uri : r.uri <+: List.ofFn p.conn.uri
  version : (r.version ++ [13]) <+: List.ofFn p.conn.version

/-- A complete request that fits is taken to its end, whatever stands behind its head. -/
theorem accepted (fits : r.Fits) : Halts (step e) (start c) ∧ ∃ p, Accepted e r c p ∧
    processRequestLine c = .ok (processBody p.conn) ∧ (processBody p.conn).state = .sendData ∧
    (processBody p.conn).queryStartIndex = 0 ∧ (processBody p.conn).queryEndIndex = 0 := by
  obtain ⟨method, uri, version, headers⟩ := fits
  have within : ∀ h ∈ r.headers, Within Dest.size (h ++ [13]) := by
    intro h hh hit some
    refine ⟨start_le some, ?_⟩
    rw [List.length_append, List.length_singleton]
    exact headers h hh hit some
  have line := leads_called (e := e) buf hc method uri version
  obtain ⟨p, lines, worked⟩ : ∃ p, Leads (step e) (fun _ => True) (called c r) p ∧
      Worked r.headers (called c r) p :=
    leads_head rfl (called_rest buf) r.headers_clean fun h hh hit some =>
      .inl ((headers h hh hit some).trans (Nat.add_le_add_left hit.1.size_le_room _))
  have leads := line.trans lines
  have ended : Stuck (step e) p := stuck_iff.mpr (.inl worked.pc)
  refine ⟨leads.halts ended, p, ⟨leads, worked.pc, worked.lines, ?_, ?_, ?_, ?_⟩, ?_, rfl, rfl, rfl⟩
  · rw [worked.start, Request.text, List.length_append, List.length_cons, r.length_line]
    change r.method.length + 1 + (r.uri.length + 1) + (r.version.length + 2) + _ = _
    omega
  · have kept : p.conn.method = (called c r).conn.get .method :=
      worked.fields .method (by decide)
    rw [kept]
    exact called_method buf method uri version
  · have kept : p.conn.uri = (called c r).conn.get .uri :=
      worked.fields .uri (by decide)
    rw [kept]
    exact called_uri buf uri version
  · have kept : p.conn.version = (called c r).conn.get .version :=
      worked.fields .version (by decide)
    rw [kept]
    exact called_version buf version
  · have run : Reach (step e) (start c) p := (leads.reachIf (a := true) trivial).reach
    have bounds := worked.contained within (contained_called method uri version)
    have hits : none ∉ p.lines := by
      rw [worked.lines]
      simp [called, start, copied, jump, written, logged]
    have last : p.resume = .ok (processBody p.conn) := by rw [resume, worked.pc]
    have room : ∀ k ∈ p.copies, k.count ≤ k.dest.room := by
      intro k hk
      have size := k.dest.size_le_room
      have := (bounds k hk).2
      omega
    exact (resume_of_reach run room (by rw [worked.pc]; decide) hits).trans last

end requestLine

def getRequest : Request where
  method := ['G', 'E', 'T'].map Char.toUInt8
  blank := 32
  uri := [47]
  blank' := 32
  version := ['H', 'T', 'T', 'P', '/', '1', '.', '1'].map Char.toUInt8
  headers := [hostName ++ [32, 97]]
  blank_mem := by decide
  blank'_mem := by decide
  method_clean := by decide
  uri_clean := by decide
  version_clean := by decide
  headers_clean := by decide

def getConnection : WebConnection :=
  .accepted .zero (getRequest.text ++ ([98, 99] ++ List.replicate 8 255))

theorem accepted_of_get : Halts (step 0) (start getConnection) ∧
    ∃ p, Accepted 0 getRequest getConnection p := by
  have fits : getRequest.Fits := ⟨by decide, by decide, by decide, by decide⟩
  have buf : getConnection.querybuf = getRequest.text ++ ([98, 99] ++ List.replicate 8 255) := rfl
  obtain ⟨halts, p, parsed, -⟩ := accepted buf rfl fits
  exact ⟨halts, p, parsed⟩

end Parse

end Leano.Epoll
