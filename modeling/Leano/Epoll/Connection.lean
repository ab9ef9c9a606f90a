import Leano.Lib.CString
import Mathlib.Data.Fintype.Pi

/-! A connection of `src/epoll_server.cpp` and its receive buffer. -/

namespace Leano.Epoll

open Leano.Lib

def queryInitLen : Nat := 1024

def remainBuffer : Int := 512

inductive ConnState where
  | accept
  | read
  | sendData
  deriving DecidableEq

inductive Handler where
  | webAccept
  | readRequest
  | sendResponse
  | emptyEventHandler
  deriving DecidableEq

structure Control where
  state : ConnState
  readHandler : Option Handler
  writeHandler : Option Handler
  deriving DecidableEq

structure Fields where
  method : Field 8
  uri : Field 128
  version : Field 16
  host : Field 128
  accept : Field 128
  conn : Field 20
  deriving DecidableEq

def Fields.zero : Fields := ⟨fun _ => 0, fun _ => 0, fun _ => 0, fun _ => 0, fun _ => 0, fun _ => 0⟩

/-- `web_connection_t`; `querybuf` is the whole allocation. -/
structure WebConnection extends Control, Fields where
  querybuf : List UInt8
  queryStartIndex : Nat
  queryEndIndex : Int
  queryRemainLen : Int

namespace WebConnection

/-- Memory from `malloc` holds anything: `raw` in the connection, `content` in its buffer. -/
def initConnection (raw : Fields) (content : List UInt8) : WebConnection where
  toControl := ⟨.accept, none, none⟩
  toFields := raw
  querybuf := content
  queryStartIndex := 0
  queryEndIndex := 0
  queryRemainLen := queryInitLen

def accepted (raw : Fields) (content : List UInt8) : WebConnection :=
  { initConnection raw content with state := .read, readHandler := some .readRequest }

def rest (c : WebConnection) : List UInt8 := c.querybuf.drop c.queryStartIndex

def withBuf (c : WebConnection) (querybuf : List UInt8) : WebConnection :=
  { c with querybuf := querybuf }

end WebConnection

def toInt32 (n : Int) : Int := n.bmod (2 ^ 32)

def realloc (fill : Nat → UInt8) (buf : List UInt8) (size : Nat) : List UInt8 :=
  buf.take size ++ (List.range (size - buf.length)).map fun i => fill (buf.length + i)

def tryToEnlargeBuffer (fill : Nat → UInt8) (c : WebConnection) : Except Fault WebConnection :=
  if c.queryRemainLen < remainBuffer then
    match strlen c.querybuf with
    | none => .error .overrun
    | some len =>
      let newSize := toInt32 (len + queryInitLen)
      -- a negative size is huge as a `size_t`, and the buffer becomes NULL
      if newSize < 0 then .error .null
      else
        .ok { c with
          querybuf := realloc fill c.querybuf newSize.toNat
          queryRemainLen := newSize - c.queryEndIndex }
  else .ok c

def recvData (data : List UInt8) (c : WebConnection) : Except Fault WebConnection :=
  if 0 ≤ c.queryEndIndex ∧ c.queryEndIndex + data.length ≤ c.querybuf.length then
    .ok { c with
      querybuf := c.querybuf.take c.queryEndIndex.toNat ++ data ++
        c.querybuf.drop (c.queryEndIndex.toNat + data.length)
      queryEndIndex := c.queryEndIndex + data.length
      queryRemainLen := c.queryRemainLen - data.length }
  else .error .overflow

end Leano.Epoll
