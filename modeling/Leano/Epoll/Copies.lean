import Leano.Epoll.Connection

namespace Leano.Epoll

open Leano.Lib

inductive Dest where
  | method
  | uri
  | version
  | host
  | accept
  | conn
  deriving DecidableEq

namespace Dest

def size : Dest → Nat
  | method => 8
  | uri => 128
  | version => 16
  | host => 128
  | accept => 128
  | conn => 20

def offset : Dest → Nat
  | method => 0
  | uri => 8
  | version => 136
  | host => 152
  | accept => 280
  | conn => 408

def room (d : Dest) : Nat := 428 - d.offset

theorem size_le_room (d : Dest) : d.size ≤ d.room := by
  cases d <;> decide

theorem disjoint {d e : Dest} (h : e ≠ d) :
    e.offset + e.size ≤ d.offset ∨ d.offset + d.size ≤ e.offset := by
  cases d <;> cases e <;> first | exact absurd rfl h | decide

end Dest

def overwrite {k : Nat} (field : Field k) (start : Nat) (d : Dest) (src : List UInt8) (n : Nat) :
    Field k := fun i =>
  if d.offset ≤ start + i ∧ start + i < d.offset + n then
    (beforeNul src).getD (start + i - d.offset) 0
  else field i

def Fields.strncpy (f : Fields) (d : Dest) (src : List UInt8) (n : Nat) : Fields where
  method := overwrite f.method Dest.method.offset d src n
  uri := overwrite f.uri Dest.uri.offset d src n
  version := overwrite f.version Dest.version.offset d src n
  host := overwrite f.host Dest.host.offset d src n
  accept := overwrite f.accept Dest.accept.offset d src n
  conn := overwrite f.conn Dest.conn.offset d src n

/-- `strncpy` to a field. As a `size_t` a negative count is larger than any memory, and what a copy
out of the connection does is undefined. -/
def Fields.copy (f : Fields) (d : Dest) (src : List UInt8) (n : Int) : Except Fault Fields :=
  if n < 0 ∨ d.room < n then .error .overflow
  else if src.length < n ∧ 0 ∉ src then .error .overrun
  else .ok (f.strncpy d src n.toNat)

def Fields.get (f : Fields) : (d : Dest) → Field d.size
  | .method => f.method
  | .uri => f.uri
  | .version => f.version
  | .host => f.host
  | .accept => f.accept
  | .conn => f.conn

theorem Fields.ext_get {f g : Fields} (h : ∀ d, f.get d = g.get d) : f = g := by
  have method := h .method
  have uri := h .uri
  have version := h .version
  have host := h .host
  have accept := h .accept
  have conn := h .conn
  cases f
  cases g
  simp only [get] at method uri version host accept conn
  rw [method, uri, version, host, accept, conn]

section overwrite

variable {k start n : Nat} {field : Field k} {d : Dest} {src : List UInt8}

theorem overwrite_before (h : start + k ≤ d.offset) : overwrite field start d src n = field := by
  funext i
  rw [overwrite, if_neg]
  have := i.isLt
  omega

theorem overwrite_behind (h : d.offset + n ≤ start) : overwrite field start d src n = field := by
  funext i
  rw [overwrite, if_neg]
  omega

end overwrite

theorem get_strncpy (f : Fields) (d e : Dest) (src : List UInt8) (n : Nat) :
    (f.strncpy d src n).get e = overwrite (f.get e) e.offset d src n := by
  cases e <;> rfl

section copy

variable {f : Fields} {d : Dest} {src : List UInt8} {n : Int}

theorem strncpy_append {n : Nat} (h : n ≤ src.length) (t : List UInt8) :
    f.strncpy d (src ++ t) n = f.strncpy d src n := by
  refine Fields.ext_get fun e => funext fun i => ?_
  rw [get_strncpy, get_strncpy, overwrite, overwrite]
  split
  case isTrue covered => exact getD_takeWhile_append (by omega) t
  case isFalse => rfl

theorem copy_of_fits (low : 0 ≤ n) (high : n ≤ d.room) (inside : n ≤ src.length ∨ 0 ∈ src) :
    f.copy d src n = .ok (f.strncpy d src n.toNat) := by
  have readable : ¬ (src.length < n ∧ 0 ∉ src) := by
    rintro ⟨short, clean⟩
    rcases inside with long | nul
    · omega
    · exact clean nul
  rw [Fields.copy, if_neg (by omega), if_neg readable]

theorem copy_of_past (h : ¬ (0 ≤ n ∧ n ≤ d.room)) : f.copy d src n = .error .overflow := by
  rw [Fields.copy, if_pos (by omega)]

end copy

end Leano.Epoll
