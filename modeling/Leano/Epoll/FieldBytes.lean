import Leano.Epoll.Request

namespace Leano.Epoll

open Leano.Lib

namespace Fields

def put (f : Fields) (k : Dest × List UInt8) : Fields := f.strncpy k.1 k.2 k.2.length

section put

variable {f : Fields} {d e : Dest} {w : List UInt8}

theorem get_put (i : Fin e.size) (nul : 0 ∉ w) (fits : w.length ≤ d.size) :
    (f.put (d, w)).get e i = if d = e ∧ (i : Nat) < w.length then w.getD i 0 else f.get e i := by
  have whole : beforeNul w = w := by simpa [beforeNul] using beforeNul_append_of_not_mem nul []
  change (f.strncpy d w w.length).get e i = _
  rw [get_strncpy, overwrite, whole]
  by_cases same : d = e
  · subst same
    by_cases covered : (i : Nat) < w.length
    · simp [covered]
    · simp [covered]
  · have apart := Dest.disjoint (Ne.symm same)
    have inside := i.isLt
    rw [if_neg (by omega), if_neg (by simp [same])]

theorem copy_put (f : Fields) (t : List UInt8) (fits : w.length ≤ d.size) :
    f.copy d (w ++ t) w.length = .ok (f.put (d, w)) := by
  have room := d.size_le_room
  have inside : (w.length : Int) ≤ (w ++ t).length := by
    rw [List.length_append]
    omega
  rw [copy_of_fits (by omega) (by omega) (.inl inside), Int.toNat_natCast, strncpy_append le_rfl]
  rfl

end put

end Fields

def headerPiece (h : List UInt8) : Option (Dest × List UInt8) :=
  (named (h ++ [13])).map fun hit => (hit.1, (h ++ [13]).drop hit.2)

namespace Request

def pieces (r : Request) : List (Dest × List UInt8) :=
  (.method, r.method) :: (.uri, r.uri) :: (.version, r.version ++ [13]) ::
    r.headers.filterMap headerPiece

def lastPiece (r : Request) (d : Dest) (i : Nat) : Option (List UInt8) :=
  ((r.pieces.filter fun k => k.1 = d ∧ i < k.2.length).map Prod.snd).getLast?

def fields (r : Request) (f : Fields) : Fields := r.pieces.foldl Fields.put f

variable {r : Request}

theorem nul_headerPiece {h : List UInt8} {k : Dest × List UInt8} (clean : Clean newline h)
    (some : headerPiece h = some k) : 0 ∉ k.2 := by
  obtain ⟨hit, -, rfl⟩ := Option.map_eq_some_iff.mp some
  intro nul
  have mem := List.mem_of_mem_drop nul
  simp [clean.nul] at mem

theorem nul_pieces {k : Dest × List UInt8} (h : k ∈ r.pieces) : 0 ∉ k.2 := by
  simp only [pieces, List.mem_cons, List.mem_filterMap] at h
  rcases h with rfl | rfl | rfl | ⟨l, hl, some⟩
  · exact r.method_clean.nul
  · exact r.uri_clean.nul
  · simp [r.version_clean.nul]
  · exact nul_headerPiece (r.headers_clean l hl).2 some

theorem Fits.pieces (fits : r.Fits) {k : Dest × List UInt8} (h : k ∈ r.pieces) :
    k.2.length ≤ k.1.size := by
  simp only [Request.pieces, List.mem_cons, List.mem_filterMap] at h
  rcases h with rfl | rfl | rfl | ⟨l, hl, some⟩
  · exact fits.method
  · exact fits.uri
  · rw [List.length_append]
    exact fits.version
  · obtain ⟨hit, found, rfl⟩ := Option.map_eq_some_iff.mp some
    have long := fits.headers l hl hit found
    rw [List.length_drop, List.length_append, List.length_singleton]
    exact Nat.sub_le_iff_le_add'.mpr long

end Request

theorem get_foldl_put {ks : List (Dest × List UInt8)} (f : Fields) {d : Dest} (i : Fin d.size)
    (nul : ∀ k ∈ ks, 0 ∉ k.2) (fits : ∀ k ∈ ks, k.2.length ≤ k.1.size) :
    (ks.foldl Fields.put f).get d i =
      (((ks.filter fun k => k.1 = d ∧ (i : Nat) < k.2.length).map Prod.snd).getLast?.elim
        (f.get d i) fun w => w.getD i 0) := by
  induction ks using List.reverseRecOn with
  | nil => rfl
  | append_singleton ks k ih =>
    obtain ⟨d', w⟩ := k
    rw [List.forall_mem_append, List.forall_mem_singleton] at nul fits
    rw [List.foldl_concat, Fields.get_put i nul.2 fits.2, ih nul.1 fits.1]
    by_cases covered : d' = d ∧ (i : Nat) < w.length
    · simp [covered]
    · simp only [covered, if_false, List.filter_append]
      simp [covered]

section parsed

variable {f : Fields} {c : WebConnection} {r : Request} {after : List UInt8}

theorem headerLine_put {h t : List UInt8} (f : Fields)
    (fits : ∀ k, headerPiece h = some k → k.2.length ≤ k.1.size) :
    headerLine f (h ++ [13] ++ 10 :: t) (h ++ [13]).length =
      .ok ((headerPiece h).toList.foldl Fields.put f) := by
  rw [headerLine, headerDest_eq (.inr rfl), ok_bind]
  cases found : named (h ++ [13]) with
  | none =>
    simp only [headerPiece, found]
    rfl
  | some hit =>
    have piece : headerPiece h = some (hit.1, (h ++ [13]).drop hit.2) := by
      simp [headerPiece, found]
    have low := start_le found
    have count : ((h ++ [13]).length - hit.2 : Int) = ((h ++ [13]).drop hit.2).length := by
      rw [List.length_drop]
      omega
    simp only [List.drop_append_of_le_length low, count, piece]
    exact Fields.copy_put f (10 :: t) (fits _ piece)

theorem headerLines_put {headers : List (List UInt8)} {n : Nat} (f : Fields) (after : List UInt8)
    (clean : ∀ h ∈ headers, h ≠ [] ∧ Clean newline h)
    (fits : ∀ h ∈ headers, ∀ k, headerPiece h = some k → k.2.length ≤ k.1.size)
    (hn : (headText headers ++ after).length < n) :
    headerLines n f (headText headers ++ after) =
      .ok ((headers.filterMap headerPiece).foldl Fields.put f) := by
  induction headers generalizing f n with
  | nil =>
    obtain ⟨n, rfl⟩ : ∃ k, n = k + 1 := ⟨n - 1, by omega⟩
    rfl
  | cons h headers ih =>
    obtain ⟨n, rfl⟩ : ∃ k, n = k + 1 := ⟨n - 1, by omega⟩
    obtain ⟨⟨ne, cleanLine⟩, clean⟩ := List.forall_mem_cons.mp clean
    obtain ⟨fitsLine, fits⟩ := List.forall_mem_cons.mp fits
    have text : headText (h :: headers) ++ after =
        h ++ [13] ++ 10 :: (headText headers ++ after) := by simp [headText]
    have split : Splits newline (h ++ [13] ++ 10 :: (headText headers ++ after)) (h ++ [13])
        (headText headers ++ after) :=
      splits_newline (by simp [cleanLine.nul]) (by simp [cleanLine.newline]) _
    have long : (h ++ [13]).length ≠ 1 := by simp [ne]
    have shorter : (headText headers ++ after).length < n := by
      rw [text, split.length] at hn
      omega
    rw [text, headerLines, split.found, ok_bind]
    simp only [long, if_false]
    rw [headerLine_put f fitsLine, ok_bind, split.behind, ih _ clean fits shorter,
      ← List.foldl_append]
    cases piece : headerPiece h <;> simp [piece]

section request

variable (buf : c.querybuf = r.text ++ after) (hc : c.queryStartIndex = 0) (fits : r.Fits)
include buf fits

theorem processHead_fields (c' : WebConnection) (same : c'.querybuf = c.querybuf)
    (index : c'.queryStartIndex = r.line.length + 1) :
    processHead c' = .ok (processBody { c' with
      toFields := (r.headers.filterMap headerPiece).foldl Fields.put c'.toFields }) := by
  have rest : c'.rest = headText r.headers ++ after := by
    rw [WebConnection.rest, same, index]
    exact (Parse.splits_line buf).behind
  have clean : ∀ h ∈ r.headers, ∀ k, headerPiece h = some k → k.2.length ≤ k.1.size := by
    intro h hh k piece
    refine fits.pieces ?_
    simp only [Request.pieces, List.mem_cons, List.mem_filterMap]
    exact .inr (.inr (.inr ⟨h, hh, piece⟩))
  rw [processHead, rest, headerLines_put _ after r.headers_clean clean (Nat.lt_succ_self _)]
  rfl

theorem requestVersion_fields (c' : WebConnection) (same : c'.querybuf = c.querybuf)
    (index : c'.queryStartIndex = r.method.length + 1 + (r.uri.length + 1)) :
    requestVersion c' = .ok (processBody { c' with
      toFields := ((.version, r.version ++ [13]) :: r.headers.filterMap headerPiece).foldl
        Fields.put c'.toFields }) := by
  have length := r.length_line
  have split : Splits newline c'.querybuf r.line (headText r.headers ++ after) :=
    same ▸ Parse.splits_line buf
  have count : (r.line.length - c'.queryStartIndex : Int) = (r.version ++ [13]).length := by
    rw [List.length_append, List.length_singleton]
    omega
  have rest : c'.rest = (r.version ++ [13]) ++ (10 :: headText r.headers ++ after) := by
    have behind := (Parse.splits_uri buf).behind
    rw [List.drop_drop] at behind
    rw [WebConnection.rest, same, index, behind]
    simp
  have fitsVersion : (r.version ++ [13]).length ≤ Dest.version.size := by
    rw [List.length_append]
    exact fits.version
  have copied := Fields.copy_put (d := .version) c'.toFields
    (10 :: headText r.headers ++ after) fitsVersion
  rw [← rest, ← count] at copied
  let behind : WebConnection :=
    { c' with
      toFields := c'.toFields.put (.version, r.version ++ [13])
      queryStartIndex := r.line.length + 1 }
  have next := processHead_fields buf fits behind same rfl
  have found : requestVersion c' = processHead behind := by
    rw [requestVersion, split.found, ok_bind]
    simp only
    rw [copied]
    rfl
  rw [found, next]
  rfl

theorem requestUri_fields (c' : WebConnection) (same : c'.querybuf = c.querybuf)
    (index : c'.queryStartIndex = r.method.length + 1) :
    requestUri c' = .ok (processBody { c' with
      toFields := ((.uri, r.uri) :: (.version, r.version ++ [13]) ::
        r.headers.filterMap headerPiece).foldl Fields.put c'.toFields }) := by
  have rest : c'.rest = c.querybuf.drop (r.method.length + 1) := by
    rw [WebConnection.rest, same, index]
  have split := Parse.splits_uri buf
  rw [← rest] at split
  obtain ⟨b, -, -, src, -⟩ := id split
  have copied := Fields.copy_put (d := .uri) c'.toFields
    (b :: (r.version ++ 13 :: 10 :: headText r.headers ++ after)) fits.uri
  rw [← src] at copied
  have next := requestVersion_fields buf fits
    ({ c' with toFields := c'.toFields.put (.uri, r.uri) }.advance r.uri.length) same
    (congrArg (· + (r.uri.length + 1)) index)
  exact (Parse.requestWord_found split.found copied).trans next

include hc in
theorem processRequestLine_fields :
    processRequestLine c = .ok (processBody { c with toFields := r.fields c.toFields }) := by
  have split := Parse.splits_method buf
  have rest : c.rest = c.querybuf := by rw [WebConnection.rest, hc, List.drop_zero]
  rw [← rest] at split
  obtain ⟨b, -, -, src, -⟩ := id split
  have copied := Fields.copy_put (d := .method) c.toFields
    (b :: (r.uri ++ r.blank' :: (r.version ++ 13 :: 10 :: headText r.headers) ++ after)) fits.method
  rw [← src] at copied
  have index : c.queryStartIndex + (r.method.length + 1) = r.method.length + 1 := by
    rw [hc, Nat.zero_add]
  have next := requestUri_fields buf fits
    ({ c with toFields := c.toFields.put (.method, r.method) }.advance r.method.length) rfl index
  exact (Parse.requestWord_found split.found copied).trans next

end request

/-- The parser takes a complete request that fits to its end, whatever stands behind its head. Each
byte of a field is then that of the last piece for the field that reaches it, and is what it was
where none does. -/
theorem parsed_bytes (buf : c.querybuf = r.text ++ after) (hc : c.queryStartIndex = 0)
    (fits : r.Fits) : ∃ f, processRequestLine c = .ok (processBody { c with toFields := f }) ∧
      ∀ (d : Dest) (i : Fin d.size),
        f.get d i = (r.lastPiece d i).elim (c.get d i) fun w => w.getD i 0 := by
  refine ⟨r.fields c.toFields, processRequestLine_fields buf hc fits, fun d i => ?_⟩
  exact get_foldl_put c.toFields i (fun _ => Request.nul_pieces) fun _ => fits.pieces

end parsed

theorem parsed_bytes_of_get : ∃ f,
    processRequestLine Parse.getConnection =
      .ok (processBody { Parse.getConnection with toFields := f }) ∧
    f.host 0 = 97 ∧ f.host 1 = 13 ∧ f.host 2 = Parse.getConnection.host 2 := by
  have fits : Parse.getRequest.Fits := ⟨by decide, by decide, by decide, by decide⟩
  obtain ⟨f, parsed, bytes⟩ := parsed_bytes (c := Parse.getConnection)
    rfl rfl fits
  have host (i : Fin 128) := bytes .host i
  refine ⟨f, parsed, (host 0).trans ?_, (host 1).trans ?_, (host 2).trans ?_⟩
  all_goals decide

end Leano.Epoll
