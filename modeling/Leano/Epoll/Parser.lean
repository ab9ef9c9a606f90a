import Leano.Epoll.Copies

/-! The request parser of `src/epoll_server.cpp`. -/

namespace Leano.Epoll

open Leano.Lib

def blanks : List UInt8 := [32, 9]

def newline : List UInt8 := [10]

def hostName : List UInt8 := ['H', 'o', 's', 't', ':'].map Char.toUInt8

def acceptName : List UInt8 := ['A', 'c', 'c', 'e', 'p', 't', ':'].map Char.toUInt8

def connectionName : List UInt8 :=
  ['C', 'o', 'n', 'n', 'e', 'c', 't', 'i', 'o', 'n', ':'].map Char.toUInt8

def processBody (c : WebConnection) : WebConnection :=
  { c with
    queryStartIndex := 0
    queryEndIndex := 0
    state := .sendData
    writeHandler := some .sendResponse
    readHandler := some .emptyEventHandler }

def headerDest (line : List UInt8) : Except Fault (Option (Dest × Nat)) := do
  if ← strncaseeq hostName line then return some (.host, 6)
  else if ← strncaseeq acceptName line then return some (.accept, 8)
  else if ← strncaseeq connectionName line then return some (.conn, 12)
  else return none

def headerLine (f : Fields) (line : List UInt8) (len : Nat) : Except Fault Fields := do
  match ← headerDest line with
  | none => return f
  | some (dest, off) => f.copy dest (line.drop off) (len - off)

/-- The loop of `process_head`. Every round takes a byte of the allocation, so there are no more
rounds than bytes. -/
def headerLines : Nat → Fields → List UInt8 → Except Fault Fields
  | 0, _, _ => .error .overrun
  | n + 1, f, line => do
    match ← strpbrk newline line with
    | none => throw .null
    | some len =>
      if len = 1 then return f
      else headerLines n (← headerLine f line len) (line.drop (len + 1))

/-- `process_head`; `process_body` resets the index its loop has moved. -/
def processHead (c : WebConnection) : Except Fault WebConnection := do
  let f ← headerLines (c.rest.length + 1) c.toFields c.rest
  return processBody { c with toFields := f }

def WebConnection.advance (c : WebConnection) (len : Nat) : WebConnection :=
  { c with queryStartIndex := c.queryStartIndex + (len + 1) }

def requestVersion (c : WebConnection) : Except Fault WebConnection := do
  match ← strpbrk newline c.querybuf with
  | none => return c
  | some pos =>
    let f ← c.copy .version c.rest (pos - c.queryStartIndex)
    processHead { c with toFields := f, queryStartIndex := pos + 1 }

def requestWord (d : Dest) (next : WebConnection → Except Fault WebConnection)
    (c : WebConnection) : Except Fault WebConnection := do
  match ← strpbrk blanks c.rest with
  | none => return c
  | some len =>
    let f ← c.copy d c.rest len
    next ({ c with toFields := f }.advance len)

def requestUri : WebConnection → Except Fault WebConnection := requestWord .uri requestVersion

def processRequestLine : WebConnection → Except Fault WebConnection :=
  requestWord .method requestUri

def sent : Control := ⟨.sendData, some .emptyEventHandler, some .sendResponse⟩

inductive Parsed (c c' : WebConnection) : Prop
  | complete : c'.toControl = sent → Parsed c c'
  | incomplete : c'.toControl = c.toControl → c'.querybuf = c.querybuf →
      c'.queryEndIndex = c.queryEndIndex → c'.queryRemainLen = c.queryRemainLen →
      c.queryStartIndex ≤ c'.queryStartIndex → Parsed c c'

theorem Parsed.refl (c : WebConnection) : Parsed c c :=
  .incomplete rfl rfl rfl rfl le_rfl

theorem Parsed.of_advance {c c' : WebConnection} {f : Fields} {len : Nat}
    (h : Parsed ({ c with toFields := f }.advance len) c') : Parsed c c' := by
  cases h with
  | complete sent => exact .complete sent
  | incomplete control buf last room start =>
    exact .incomplete control buf last room ((Nat.le_add_right _ _).trans start)

variable {c c' : WebConnection}

theorem sent_of_processHead (h : processHead c = .ok c') : c'.toControl = sent := by
  obtain ⟨f, -, h⟩ := bind_eq_ok h
  cases h
  rfl

theorem requestVersion_ok (h : requestVersion c = .ok c') : c'.toControl = sent ∨ c' = c := by
  obtain ⟨found, -, h⟩ := bind_eq_ok h
  cases found with
  | none =>
    cases h
    exact .inr rfl
  | some pos =>
    obtain ⟨version, -, h⟩ := bind_eq_ok h
    exact .inl (sent_of_processHead h)

theorem parsed_of_requestVersion (h : requestVersion c = .ok c') : Parsed c c' := by
  rcases requestVersion_ok h with sent | rfl
  · exact .complete sent
  · exact .refl _

theorem parsed_of_requestWord {d : Dest} {next : WebConnection → Except Fault WebConnection}
    (later : ∀ c, next c = .ok c' → Parsed c c') (h : requestWord d next c = .ok c') :
    Parsed c c' := by
  obtain ⟨found, -, h⟩ := bind_eq_ok h
  cases found with
  | none =>
    cases h
    exact .refl _
  | some len =>
    obtain ⟨word, -, h⟩ := bind_eq_ok h
    exact (later _ h).of_advance

theorem parsed_of_requestUri (h : requestUri c = .ok c') : Parsed c c' :=
  parsed_of_requestWord (fun _ => parsed_of_requestVersion) h

theorem parsed_of_processRequestLine (h : processRequestLine c = .ok c') : Parsed c c' :=
  parsed_of_requestWord (fun _ => parsed_of_requestUri) h

end Leano.Epoll
