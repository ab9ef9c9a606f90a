import Leano.Lib.CString

/-! What `HttpRequests` relies on of libcurl: an easy handle keeps each option until it is set
again, and a transfer is performed as the options say. -/

namespace Leano.HttpRequests

open Leano.Lib

abbrev Bytes := List UInt8

inductive CurlCode where
  | ok
  | writeError
  | badFunctionArgument
  | other (code : Nat)
  deriving DecidableEq

inductive Method where
  | get
  | post
  deriving DecidableEq

/-- A call of `curl_easy_setopt`. Strings are copied; the data of a POST and the header list are
pointers, to memory up to its end and to an object. -/
inductive Setting where
  | url (url : Bytes)
  | port (port : Int)
  | timeout (nSecond : Int)
  | connectTimeout (nSecond : Int)
  | userAgent (agent : Bytes)
  | cookie (cookie : Bytes)
  | resumeFrom (pos : Int)
  | httpHeader (list : Option Nat)
  | noProgress (off : Bool)
  | httpGet
  | post
  | postFields (data : Bytes)
  | postFieldSize (size : Nat)
  | followLocation (follow : Bool)
  | sslVerifyPeer (verify : Bool)
  | sslVerifyHost (verify : Bool)

structure Options where
  url : Option Bytes
  port : Option Int
  timeout : Option Int
  connectTimeout : Option Int
  userAgent : Option Bytes
  cookie : Option Bytes
  resumeFrom : Option Int
  httpHeader : Option Nat
  noProgress : Bool
  method : Method
  postFields : Option Bytes
  postFieldSize : Option Nat
  followLocation : Bool
  sslVerifyPeer : Bool
  sslVerifyHost : Bool
  deriving DecidableEq

namespace Options

def fresh : Options where
  url := none
  port := none
  timeout := none
  connectTimeout := none
  userAgent := none
  cookie := none
  resumeFrom := none
  httpHeader := none
  noProgress := true
  method := .get
  postFields := none
  postFieldSize := none
  followLocation := false
  sslVerifyPeer := true
  sslVerifyHost := true

def set (o : Options) : Setting → Options
  | .url url => { o with url := some url }
  | .port port => { o with port := some port }
  | .timeout nSecond => { o with timeout := some nSecond }
  | .connectTimeout nSecond => { o with connectTimeout := some nSecond }
  | .userAgent agent => { o with userAgent := some agent }
  | .cookie cookie => { o with cookie := some cookie }
  | .resumeFrom pos => { o with resumeFrom := some pos }
  | .httpHeader list => { o with httpHeader := list }
  | .noProgress off => { o with noProgress := off }
  | .httpGet => { o with method := .get }
  | .post => { o with method := .post }
  | .postFields data => { o with postFields := some data, method := .post }
  | .postFieldSize size => { o with postFieldSize := some size }
  | .followLocation follow => { o with followLocation := follow }
  | .sslVerifyPeer verify => { o with sslVerifyPeer := verify }
  | .sslVerifyHost verify => { o with sslVerifyHost := verify }

def body (o : Options) : Option Bytes :=
  o.postFields.bind fun data =>
    match o.postFieldSize with
    | some size => if size ≤ data.length then some (data.take size) else none
    | none => (strlen data).map fun size => data.take size

end Options

/-- A libcurl whose handles hold what they are documented to hold. -/
structure Curl where
  Handle : Type
  init : Handle
  setopt : Handle → Setting → Handle
  options : Handle → Options
  options_init : options init = Options.fresh
  options_setopt : ∀ handle setting, options (setopt handle setting) = (options handle).set setting

def Curl.plain : Curl where
  Handle := Options
  init := Options.fresh
  setopt := Options.set
  options := id
  options_init := rfl
  options_setopt _ _ := rfl

structure Chunk where
  nSize : Nat
  nMemByte : Nat
  data : Bytes
  length : data.length = nSize * nMemByte

inductive Event where
  | chunk (c : Chunk) (written : Nat)
  | progress

/-- What comes from outside during a `curl_easy_perform`; `result` is its code unless a callback
makes libcurl give up. -/
structure Transfer where
  events : List Event
  result : CurlCode

def chunksOf (events : List Event) : List Chunk :=
  events.filterMap fun e =>
    match e with
    | .chunk c _ => some c
    | .progress => none

end Leano.HttpRequests
