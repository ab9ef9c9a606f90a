import Leano.HttpRequests.Curl
import Leano.Lib.Heap

/-! The class `HttpRequests` of `src/http_requests.cpp`. Its calls come one after another; what
libcurl and the C library answer is part of the call. -/

namespace Leano.HttpRequests

open Leano.Lib

inductive RequestsFlag where
  | rNone
  | rDownload
  | rPost
  | rGet
  deriving DecidableEq

/-- The members, the header lists and the files around them, and histories: the options of each
transfer, and what the callback was given and has reported in the last one. Of `m_Callback` only
counts whether it is null; `fp` is the name of the open file. -/
structure State (curl : Curl) where
  pCurl : Option curl.Handle
  port : Int
  fp : Option Bytes
  curlCode : CurlCode
  responsStr : Bytes
  flag : RequestsFlag
  headerlist : Option Nat
  callback : Bool
  lists : Heap
  strings : Nat → List Bytes
  files : Bytes → Option Bytes
  performed : List Options
  reports : List (Nat × Nat)

inductive Call where
  | setPort (port : Int) (rc : CurlCode)
  | setExecutTimeout (nSecond : Int) (rc : CurlCode)
  | setConnectTimeout (nSecond : Int) (rc : CurlCode)
  | setUserAgent (lpAgent : Option Bytes) (rc : CurlCode)
  | setResumeFrom (lPos : Int) (rc : CurlCode)
  | addHeader (lpKey lpValue : Bytes) (appended : Bool) (rc : CurlCode)
  | clearHeaderList
  | setCookie (lpCookie : Option Bytes) (rc : CurlCode)
  | setCallback (callback : Bool)
  | downloadFile (lpUrl lpFile : Option Bytes) (opened : Bool) (t : Transfer)
  | post (lpUrl lpData : Option Bytes) (t : Transfer)
  | postBinary (lpUrl lpData : Option Bytes) (nSize : UInt32) (t : Transfer)
  | get (lpUrl : Option Bytes) (t : Transfer)

def Call.sets : Call → Bool
  | .downloadFile _ _ _ _ => false
  | .post _ _ _ => false
  | .postBinary _ _ _ _ => false
  | .get _ _ => false
  | _ => true

def headerLine (lpKey lpValue : Bytes) : Bytes := lpKey ++ [58, 32] ++ lpValue

namespace State

variable {curl : Curl}

def init (pCurl : Option curl.Handle) (files : Bytes → Option Bytes) : State curl where
  pCurl := pCurl
  port := 8080
  fp := none
  curlCode := .ok
  responsStr := []
  flag := .rNone
  headerlist := none
  callback := false
  lists := Heap.empty
  strings := fun _ => []
  files := files
  performed := []
  reports := []

def options (s : State curl) : Option Options := s.pCurl.map curl.options

section setters

def setopt (s : State curl) (setting : Setting) (rc : CurlCode) : Bool × State curl :=
  match s.pCurl with
  | none => (false, { s with curlCode := .badFunctionArgument })
  | some handle =>
    (decide (rc = .ok), { s with
      pCurl := some (if rc = .ok then curl.setopt handle setting else handle)
      curlCode := rc })

def setPort (s : State curl) (port : Int) (rc : CurlCode) : Bool × State curl :=
  if port = s.port then (true, s) else setopt { s with port := port } (.port port) rc

def setNonneg (s : State curl) (n : Int) (setting : Setting) (rc : CurlCode) : Bool × State curl :=
  if n < 0 then (false, s) else s.setopt setting rc

def setExecutTimeout (s : State curl) (nSecond : Int) (rc : CurlCode) : Bool × State curl :=
  s.setNonneg nSecond (.timeout nSecond) rc

def setConnectTimeout (s : State curl) (nSecond : Int) (rc : CurlCode) : Bool × State curl :=
  s.setNonneg nSecond (.connectTimeout nSecond) rc

def setResumeFrom (s : State curl) (lPos : Int) (rc : CurlCode) : Bool × State curl :=
  s.setNonneg lPos (.resumeFrom lPos) rc

def setString (s : State curl) (lp : Option Bytes) (setting : Bytes → Setting) (rc : CurlCode) :
    Bool × State curl :=
  match lp with
  | none => (false, s)
  | some str => s.setopt (setting str) rc

def setUserAgent (s : State curl) (lpAgent : Option Bytes) (rc : CurlCode) : Bool × State curl :=
  s.setString lpAgent .userAgent rc

def setCookie (s : State curl) (lpCookie : Option Bytes) (rc : CurlCode) : Bool × State curl :=
  s.setString lpCookie .cookie rc

def setCallback (s : State curl) (callback : Bool) : State curl := { s with callback := callback }

def slistAppend (s : State curl) (line : Bytes) (appended : Bool) : State curl :=
  if appended then
    match s.headerlist with
    | none =>
      { s with
        headerlist := some s.lists.made
        lists := s.lists.make
        strings := Function.update s.strings s.lists.made [line] }
    | some k => { s with strings := Function.update s.strings k (s.strings k ++ [line]) }
  else { s with headerlist := none }

def addHeader (s : State curl) (lpKey lpValue : Bytes) (appended : Bool) (rc : CurlCode) :
    Bool × State curl :=
  if lpKey.length = 0 ∨ lpValue.length = 0 then (false, s)
  else
    let s := s.slistAppend (beforeNul (headerLine lpKey lpValue)) appended
    s.setopt (.httpHeader s.headerlist) rc

def clearHeaderList (s : State curl) : Option (State curl) :=
  match s.headerlist with
  | none => some s
  | some k => (s.lists.free k).map fun lists => { s with lists := lists, headerlist := none }

end setters

section callbacks

def fwrite (s : State curl) (name : Bytes) (c : Chunk) (written : Nat) : State curl :=
  { s with
    files := Function.update s.files name
      (some ((s.files name).getD [] ++ c.data.take (c.nSize * written))) }

/-- `dwriten` stays 0 for a file, whether `fwrite` has written or not. -/
def writeCallback (s : State curl) (c : Chunk) (written : Nat) : Nat × State curl :=
  match s.flag with
  | .rDownload =>
    match s.fp with
    | none => (0, s)
    | some name => (0, s.fwrite name c written)
  | .rPost => (c.nSize * c.nMemByte, { s with responsStr := s.responsStr ++ c.data })
  | .rGet => (c.nSize * c.nMemByte, { s with responsStr := s.responsStr ++ c.data })
  | .rNone => (0, s)

/-- libcurl calls `ProgressCallback`, which does not test `m_Callback`, once a download has turned
that on. -/
def progressCallback (s : State curl) : Option (State curl) :=
  if s.options.any (fun o => !o.noProgress) ∧ s.callback = false then none else some s

def report (s : State curl) (c : Chunk) (dwriten : Nat) : State curl :=
  { s with reports := s.reports ++ [(c.nSize * c.nMemByte, dwriten)] }

def deliver (s : State curl) : List Event → Option (Bool × State curl)
  | [] => some (true, s)
  | .progress :: events => s.progressCallback.bind fun s => s.deliver events
  | .chunk c written :: events =>
    let (dwriten, s') := s.writeCallback c written
    if dwriten = c.nSize * c.nMemByte then (s'.report c dwriten).deliver events
    else some (false, s'.report c dwriten)

end callbacks

section transfers

def put (s : State curl) (setting : Setting) : State curl :=
  { s with pCurl := s.pCurl.map fun handle => curl.setopt handle setting }

def start (s : State curl) (o : Options) : State curl :=
  { s with performed := s.performed ++ [o], reports := [] }

def perform (s : State curl) (t : Transfer) : Option (Bool × State curl) :=
  match s.options with
  | none => some (false, { s with curlCode := .badFunctionArgument, reports := [] })
  | some o =>
    ((s.start o).deliver t.events).map fun r =>
      let code := if r.1 then t.result else .writeError
      (decide (code = .ok), { r.2 with curlCode := code })

def fopen (s : State curl) (name : Bytes) : State curl :=
  { s with fp := some name, files := Function.update s.files name (some ((s.files name).getD [])) }

def toDownload (s : State curl) (url : Bytes) : State curl :=
  -- the file is named by `lpUrl`
  let s := (s.put (.url url)).fopen url
  let s := s.put (.noProgress false)
  { s with flag := .rDownload }

def downloadFile (s : State curl) (lpUrl lpFile : Option Bytes) (opened : Bool) (t : Transfer) :
    Option (Bool × State curl) :=
  match lpUrl, lpFile with
  | some url, some _ =>
    if opened then (s.toDownload url).perform t
    else some (false, { s.put (.url url) with fp := none })
  | _, _ => some (false, s)

def checkPost (s : State curl) (lpUrl lpData : Option Bytes)
    (next : Bytes → Bytes → Option (Bool × State curl)) : Option (Bool × State curl) :=
  match s.pCurl, lpUrl, lpData with
  | some _, some url, some data => next url data
  | _, _, _ => some (false, s)

def toPost (s : State curl) (url data : Bytes) : State curl :=
  let s := s.put .post
  let s := s.put (.url url)
  let s := s.put (.postFields data)
  { s with flag := .rPost, responsStr := [] }

def post (s : State curl) (lpUrl lpData : Option Bytes) (t : Transfer) :
    Option (Bool × State curl) :=
  s.checkPost lpUrl lpData fun url data => (s.toPost url data).perform t

def toPostBinary (s : State curl) (url data : Bytes) (nSize : UInt32) : State curl :=
  let s := s.put .post
  let s := s.put (.postFields data)
  let s := s.put (.postFieldSize nSize.toNat)
  let s := s.put (.url url)
  { s with flag := .rPost, responsStr := [] }

def postBinary (s : State curl) (lpUrl lpData : Option Bytes) (nSize : UInt32) (t : Transfer) :
    Option (Bool × State curl) :=
  s.checkPost lpUrl lpData fun url data => (s.toPostBinary url data nSize).perform t

def toGet (s : State curl) (url : Bytes) : State curl :=
  let s := s.put .httpGet
  let s := s.put (.url url)
  let s := s.put (.followLocation true)
  let s := s.put (.sslVerifyPeer false)
  let s := s.put (.sslVerifyHost false)
  { s with flag := .rGet, responsStr := [] }

def get (s : State curl) (lpUrl : Option Bytes) (t : Transfer) : Option (Bool × State curl) :=
  match lpUrl with
  | some url => (s.toGet url).perform t
  | none => some (false, s)

end transfers

end State

variable {curl : Curl}

def step (s : State curl) : Call → Option (State curl)
  | .setPort port rc => some (s.setPort port rc).2
  | .setExecutTimeout nSecond rc => some (s.setExecutTimeout nSecond rc).2
  | .setConnectTimeout nSecond rc => some (s.setConnectTimeout nSecond rc).2
  | .setUserAgent lpAgent rc => some (s.setUserAgent lpAgent rc).2
  | .setResumeFrom lPos rc => some (s.setResumeFrom lPos rc).2
  | .addHeader lpKey lpValue appended rc => some (s.addHeader lpKey lpValue appended rc).2
  | .clearHeaderList => s.clearHeaderList
  | .setCookie lpCookie rc => some (s.setCookie lpCookie rc).2
  | .setCallback callback => some (s.setCallback callback)
  | .downloadFile lpUrl lpFile opened t => (s.downloadFile lpUrl lpFile opened t).map Prod.snd
  | .post lpUrl lpData t => (s.post lpUrl lpData t).map Prod.snd
  | .postBinary lpUrl lpData nSize t => (s.postBinary lpUrl lpData nSize t).map Prod.snd
  | .get lpUrl t => (s.get lpUrl t).map Prod.snd

namespace State

variable {s t : State curl} {r : Bool × State curl} {tr : Transfer}

theorem options_put (setting : Setting) :
    (s.put setting).options = s.options.map fun o => o.set setting := by
  simp only [options, put, Option.map_map]
  congr 1
  funext handle
  exact curl.options_setopt handle setting

theorem options_toDownload (url : Bytes) : (s.toDownload url).options = s.options.map fun o =>
    (o.set (.url url)).set (.noProgress false) := by
  change (((s.put (.url url)).fopen url).put (.noProgress false)).options = _
  rw [options_put]
  change (s.put (.url url)).options.map _ = _
  rw [options_put, Option.map_map]
  rfl

theorem options_toPost (url data : Bytes) : (s.toPost url data).options = s.options.map fun o =>
    ((o.set .post).set (.url url)).set (.postFields data) := by
  change (((s.put .post).put (.url url)).put (.postFields data)).options = _
  rw [options_put, options_put, options_put, Option.map_map, Option.map_map]
  rfl

theorem options_toPostBinary (url data : Bytes) (nSize : UInt32) :
    (s.toPostBinary url data nSize).options = s.options.map fun o =>
      (((o.set .post).set (.postFields data)).set (.postFieldSize nSize.toNat)).set (.url url) := by
  change ((((s.put .post).put (.postFields data)).put (.postFieldSize nSize.toNat)).put
    (.url url)).options = _
  rw [options_put, options_put, options_put, options_put, Option.map_map, Option.map_map,
    Option.map_map]
  rfl

theorem options_toGet (url : Bytes) : (s.toGet url).options = s.options.map fun o =>
    ((((o.set .httpGet).set (.url url)).set (.followLocation true)).set (.sslVerifyPeer false)).set
      (.sslVerifyHost false) := by
  change (((((s.put .httpGet).put (.url url)).put (.followLocation true)).put
    (.sslVerifyPeer false)).put (.sslVerifyHost false)).options = _
  rw [options_put, options_put, options_put, options_put, options_put, Option.map_map,
    Option.map_map, Option.map_map, Option.map_map]
  rfl

theorem options_setopt (setting : Setting) (rc : CurlCode) :
    (s.setopt setting rc).2.options =
      s.options.map fun o => if rc = .ok then o.set setting else o := by
  unfold setopt options
  cases s.pCurl with
  | none => rfl
  | some handle =>
    simp only [Option.map_some]
    split
    case isTrue => rw [curl.options_setopt]
    case isFalse => rfl

structure Frame (s t : State curl) : Prop where
  pCurl : t.pCurl = s.pCurl
  flag : t.flag = s.flag
  fp : t.fp = s.fp
  headerlist : t.headerlist = s.headerlist
  callback : t.callback = s.callback
  lists : t.lists = s.lists
  strings : t.strings = s.strings
  performed : t.performed = s.performed

theorem Frame.trans {u : State curl} (h : Frame s t) (h' : Frame t u) : Frame s u where
  pCurl := h'.pCurl.trans h.pCurl
  flag := h'.flag.trans h.flag
  fp := h'.fp.trans h.fp
  headerlist := h'.headerlist.trans h.headerlist
  callback := h'.callback.trans h.callback
  lists := h'.lists.trans h.lists
  strings := h'.strings.trans h.strings
  performed := h'.performed.trans h.performed

theorem writeCallback_frame (c : Chunk) (written : Nat) :
    Frame s (s.writeCallback c written).2 := by
  have same : Frame s s := ⟨rfl, rfl, rfl, rfl, rfl, rfl, rfl, rfl⟩
  unfold writeCallback
  split
  · split
    · exact same
    · exact ⟨rfl, rfl, rfl, rfl, rfl, rfl, rfl, rfl⟩
  · exact ⟨rfl, rfl, rfl, rfl, rfl, rfl, rfl, rfl⟩
  · exact ⟨rfl, rfl, rfl, rfl, rfl, rfl, rfl, rfl⟩
  · exact same

theorem progressCallback_eq (h : s.progressCallback = some t) : t = s := by
  unfold progressCallback at h
  split at h
  case isTrue => cases h
  case isFalse => cases h; rfl

section deliver

variable {events : List Event} {c : Chunk} {written : Nat}

theorem deliver_progress (h : s.deliver (.progress :: events) = some r) :
    s.deliver events = some r := by
  obtain ⟨s', same, h⟩ := Option.bind_eq_some_iff.mp h
  cases progressCallback_eq same
  exact h

theorem deliver_chunk (h : s.deliver (.chunk c written :: events) = some r) :
    let u := (s.writeCallback c written).2.report c (s.writeCallback c written).1
    (s.writeCallback c written).1 = c.nSize * c.nMemByte ∧ u.deliver events = some r ∨
    (s.writeCallback c written).1 ≠ c.nSize * c.nMemByte ∧ r = (false, u) := by
  simp only [deliver] at h
  split at h
  case isTrue consumed => exact .inl ⟨consumed, h⟩
  case isFalse other => exact .inr ⟨other, (Option.some.inj h).symm⟩

theorem deliver_frame (h : s.deliver events = some r) : Frame s r.2 := by
  induction events generalizing s with
  | nil => cases h; exact ⟨rfl, rfl, rfl, rfl, rfl, rfl, rfl, rfl⟩
  | cons e events ih =>
    cases e with
    | progress => exact ih (deliver_progress h)
    | chunk c written =>
      have one : Frame s ((s.writeCallback c written).2.report c (s.writeCallback c written).1) :=
        (writeCallback_frame c written).trans ⟨rfl, rfl, rfl, rfl, rfl, rfl, rfl, rfl⟩
      obtain ⟨-, h⟩ | ⟨-, rfl⟩ := deliver_chunk h
      · exact one.trans (ih h)
      · exact one

end deliver

structure Performs (s t : State curl) : Prop where
  pCurl : t.pCurl = s.pCurl
  headerlist : t.headerlist = s.headerlist
  callback : t.callback = s.callback
  lists : t.lists = s.lists
  strings : t.strings = s.strings
  performed : t.performed = s.performed ++ s.options.toList

theorem Performs.options (h : Performs s t) : t.options = s.options := by
  rw [State.options, h.pCurl]
  rfl

theorem perform_performs (h : s.perform tr = some r) : Performs s r.2 := by
  unfold perform at h
  cases ho : s.options with
  | none =>
    rw [ho] at h
    cases h
    exact ⟨rfl, rfl, rfl, rfl, rfl, by rw [ho]; exact (List.append_nil _).symm⟩
  | some o =>
    rw [ho] at h
    obtain ⟨r', hd, rfl⟩ := Option.map_eq_some_iff.mp h
    have frame := deliver_frame hd
    refine ⟨frame.pCurl, frame.headerlist, frame.callback, frame.lists, frame.strings, ?_⟩
    rw [ho]
    exact frame.performed

def Plain : Setting → Prop
  | .port _ => True
  | .timeout _ => True
  | .connectTimeout _ => True
  | .userAgent _ => True
  | .cookie _ => True
  | .resumeFrom _ => True
  | _ => False

inductive Sets (s : State curl) : Call → State curl → Prop
  | still {c} : Sets s c s
  | setopt {c setting} (port : Int) (rc : CurlCode) (plain : Plain setting) :
      Sets s c ({ s with port := port }.setopt setting rc).2
  | addHeader {lpKey lpValue appended rc u}
      (eq : u = s.slistAppend (beforeNul (headerLine lpKey lpValue)) appended) :
      Sets s (.addHeader lpKey lpValue appended rc) (u.setopt (.httpHeader u.headerlist) rc).2
  | clear {k lists} (set : s.headerlist = some k) (free : s.lists.free k = some lists) :
      Sets s .clearHeaderList { s with lists := lists, headerlist := none }
  | callback {given} : Sets s (.setCallback given) (s.setCallback given)

theorem sets_setNonneg {c : Call} {n : Int} {setting : Setting} {rc : CurlCode}
    (plain : Plain setting) : Sets s c (s.setNonneg n setting rc).2 := by
  unfold setNonneg
  split
  · exact .still
  · exact .setopt s.port rc plain

theorem sets_setString {c : Call} {lp : Option Bytes} {setting : Bytes → Setting} {rc : CurlCode}
    (plain : ∀ str, Plain (setting str)) : Sets s c (s.setString lp setting rc).2 := by
  cases lp with
  | none => exact .still
  | some str => exact .setopt s.port rc (plain str)

theorem sets_of_step {c : Call} (sets : c.sets = true) (hs : step s c = some t) : Sets s c t := by
  cases c with
  | setPort port rc =>
    cases hs
    unfold setPort
    split
    · exact .still
    · exact .setopt port rc trivial
  | setExecutTimeout => cases hs; exact sets_setNonneg trivial
  | setConnectTimeout => cases hs; exact sets_setNonneg trivial
  | setUserAgent => cases hs; exact sets_setString fun _ => trivial
  | setResumeFrom => cases hs; exact sets_setNonneg trivial
  | addHeader =>
    cases hs
    unfold addHeader
    split
    · exact .still
    · exact .addHeader rfl
  | clearHeaderList =>
    simp only [step, clearHeaderList] at hs
    split at hs
    case h_1 => cases hs; exact .still
    case h_2 k set =>
      obtain ⟨lists, free, rfl⟩ := Option.map_eq_some_iff.mp hs
      exact .clear set free
  | setCookie => cases hs; exact sets_setString fun _ => trivial
  | setCallback => cases hs; exact .callback
  | downloadFile | post | postBinary | get => cases sets

section cases

variable {lpUrl lpFile lpData : Option Bytes} {opened : Bool}

theorem downloadFile_cases (h : s.downloadFile lpUrl lpFile opened tr = some r) :
    (∃ url file, lpUrl = some url ∧ lpFile = some file ∧ opened = true ∧
      (s.toDownload url).perform tr = some r) ∨
    (∃ url, r = (false, { s.put (.url url) with fp := none })) ∨ r = (false, s) := by
  unfold downloadFile at h
  split at h
  · split at h
    case isTrue opened => exact .inl ⟨_, _, rfl, rfl, opened, h⟩
    case isFalse => cases h; exact .inr (.inl ⟨_, rfl⟩)
  · cases h
    exact .inr (.inr rfl)

theorem checkPost_cases {next : Bytes → Bytes → Option (Bool × State curl)}
    (h : s.checkPost lpUrl lpData next = some r) :
    (∃ url data, lpUrl = some url ∧ lpData = some data ∧ s.pCurl ≠ none ∧
      next url data = some r) ∨
    (s.pCurl = none ∨ lpUrl = none ∨ lpData = none) ∧ r = (false, s) := by
  unfold checkPost at h
  cases hc : s.pCurl with
  | none => rw [hc] at h; cases h; exact .inr ⟨.inl rfl, rfl⟩
  | some handle =>
    rw [hc] at h
    cases lpUrl with
    | none => cases h; exact .inr ⟨.inr (.inl rfl), rfl⟩
    | some url =>
      cases lpData with
      | none => cases h; exact .inr ⟨.inr (.inr rfl), rfl⟩
      | some data => exact .inl ⟨url, data, rfl, rfl, Option.some_ne_none _, h⟩

theorem get_cases (h : s.get lpUrl tr = some r) :
    (∃ url, lpUrl = some url ∧ (s.toGet url).perform tr = some r) ∨
    lpUrl = none ∧ r = (false, s) := by
  cases lpUrl with
  | none => cases h; exact .inr ⟨rfl, rfl⟩
  | some url => exact .inl ⟨url, rfl, h⟩

end cases

end State

end Leano.HttpRequests
