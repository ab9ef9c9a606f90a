import Leano.Epoll.EventLoop

namespace Leano.Epoll

open Leano.Lib

def ascii (s : String) : List UInt8 := s.toList.map Char.toUInt8

def epollHello : List UInt8 := ascii "epoll hello!"

def httpResHdr (contentLength : Nat) (contentType : List UInt8) : List UInt8 :=
  ascii "HTTP/1.1 200 OK\r\nServer: Xubx's Server <0.1>\r\n" ++
  ascii "Accept-Ranges: bytes\r\nContent-Length: " ++
  (Nat.toDigits 10 contentLength).map Char.toUInt8 ++
  ascii "\r\nConnection: Close\r\nContent-Type: " ++ contentType ++ ascii "\r\n\r\n"

def httpHeader : List UInt8 := httpResHdr epollHello.length (ascii "text/html")

def response : List UInt8 := httpHeader ++ epollHello

def contentLength : List UInt8 → Option Nat
  | [] => none
  | b :: s =>
    if (ascii "Content-Length: ").isPrefixOf (b :: s) then
      some ((((b :: s).drop 16).takeWhile fun d => decide (48 ≤ d ∧ d ≤ 57)).foldl
        (fun n d => 10 * n + (d.toNat - 48)) 0)
    else contentLength s

inductive Errno where
  | eagain
  | ewouldblock
  | eintr
  | other (code : Nat)
  deriving DecidableEq

inductive Io where
  | error (errno : Errno)
  | bytes (n : Nat)
  deriving DecidableEq

def Io.within (length : Nat) : Io → Bool
  | .error _ => true
  | .bytes n => decide (1 ≤ n ∧ n ≤ length)

def Io.count : Io → Nat
  | .error _ => 0
  | .bytes n => n

structure Sends where
  header : Io
  body : Io
  deriving DecidableEq

structure Sender where
  accepted : List UInt8
  closed : Bool
  deriving DecidableEq

namespace Sender

def start : Sender := ⟨[], false⟩

def sendResponse (s : Sender) (r : Sends) : Sender :=
  match r.header with
  | .error _ => s
  | .bytes _ =>
    -- what the second `send` returns is not looked at
    ⟨s.accepted ++ httpHeader.take r.header.count ++ epollHello.take r.body.count, true⟩

def step (s : Sender) (r : Sends) : Option Sender :=
  if s.closed = true then none
  else if r.header.within httpHeader.length ∧ r.body.within epollHello.length then
    some (s.sendResponse r)
  else none

def Delivered (s : Sender) : Prop :=
  s.accepted <+: response ∧
    (s.closed = true → s.accepted = response ∧ contentLength s.accepted = some epollHello.length)

end Sender

def Sends.Whole (r : Sends) : Prop :=
  (∃ e, r.header = .error e) ∨
    r.header = .bytes httpHeader.length ∧ r.body = .bytes epollHello.length

theorem contentLength_response : contentLength response = some epollHello.length := by
  decide +kernel

variable {s t : Sender} {r : Sends}

namespace Sender

theorem step_cases (h : step s r = some t) : s.closed = false ∧
    r.header.within httpHeader.length ∧ r.body.within epollHello.length ∧ t = s.sendResponse r := by
  unfold step at h
  split at h
  case isTrue => cases h
  case isFalse opened =>
    split at h
    case isTrue within => cases h; exact ⟨Bool.eq_false_iff.mpr opened, within.1, within.2, rfl⟩
    case isFalse => cases h

def Fresh (s : Sender) : Prop := s.closed = false ∧ s.accepted = []

theorem delivered_of_fresh (h : Fresh s) : Delivered s := by
  refine ⟨by rw [h.2]; exact List.nil_prefix, fun closed => ?_⟩
  cases h.1.symm.trans closed

theorem sendResponse_cases (s : Sender) (r : Sends) :
    (∃ e, r.header = .error e) ∧ s.sendResponse r = s ∨
    (∃ n, r.header = .bytes n) ∧ (s.sendResponse r).closed = true := by
  unfold sendResponse
  cases r.header with
  | error e => exact .inl ⟨⟨e, rfl⟩, rfl⟩
  | bytes n => exact .inr ⟨⟨n, rfl⟩, rfl⟩

theorem count_le {io : Io} {length : Nat} (h : io.within length) : io.count ≤ length := by
  cases io with
  | error => exact Nat.zero_le _
  | bytes n => exact (of_decide_eq_true h).2

theorem eq_bytes_of_count {io : Io} {n : Nat} (pos : 0 < n) (h : io.count = n) :
    io = .bytes n := by
  cases io with
  | error => exact absurd h pos.ne
  | bytes m => exact congrArg Io.bytes h

theorem delivered_sendResponse_iff (fresh : Fresh s) (header : r.header.within httpHeader.length)
    (body : r.body.within epollHello.length) : Delivered (s.sendResponse r) ↔ r.Whole := by
  obtain ⟨refused, same⟩ | ⟨⟨n, bytes⟩, -⟩ := sendResponse_cases s r
  · rw [same]
    exact iff_of_true (delivered_of_fresh fresh) (.inl refused)
  · have sent : s.sendResponse r =
        ⟨httpHeader.take r.header.count ++ epollHello.take r.body.count, true⟩ := by
      simp only [sendResponse, bytes, fresh.2, List.nil_append]
    rw [sent]
    constructor
    · intro delivered
      have all := congrArg List.length (delivered.2 rfl).1
      simp only [response, List.length_append, List.length_take_of_le (count_le header),
        List.length_take_of_le (count_le body)] at all
      have := count_le header
      have := count_le body
      refine .inr ⟨eq_bytes_of_count (by decide +kernel) (by omega), ?_⟩
      exact eq_bytes_of_count (by decide +kernel) (by omega)
    · rintro (⟨e, refused⟩ | ⟨all, rest⟩)
      · cases bytes.symm.trans refused
      · have whole : httpHeader.take r.header.count ++ epollHello.take r.body.count = response := by
          rw [all, rest, Io.count, Io.count, List.take_length, List.take_length, response]
        rw [whole]
        exact ⟨List.prefix_rfl, fun _ => ⟨rfl, contentLength_response⟩⟩

theorem run_of_closed {events : List Sends} (closed : s.closed = true)
    (h : run step s events = some t) : events = [] := by
  cases events with
  | nil => rfl
  | cons r events =>
    obtain ⟨u, hs, -⟩ := Option.bind_eq_some_iff.mp (run_cons ▸ h)
    cases closed.symm.trans (step_cases hs).1

theorem along_iff_of_fresh {events : List Sends} (fresh : Fresh s)
    (h : run step s events = some t) :
    Along step Delivered s events ↔ ∀ r ∈ events, r.Whole := by
  induction events generalizing s with
  | nil => simp [delivered_of_fresh fresh]
  | cons r events ih =>
    obtain ⟨u, hs, hu⟩ := Option.bind_eq_some_iff.mp (run_cons ▸ h)
    rw [along_cons hs, List.forall_mem_cons, and_iff_right (delivered_of_fresh fresh)]
    obtain ⟨-, header, body, rfl⟩ := step_cases hs
    obtain ⟨refused, same⟩ | ⟨-, closed⟩ := sendResponse_cases s r
    · rw [same] at hu ⊢
      exact (ih fresh hu).trans (and_iff_right (.inl refused)).symm
    · obtain rfl := run_of_closed closed hu
      rw [along_nil, delivered_sendResponse_iff fresh header body]
      simp

/-- The client gets the response whole, or the connection stays open, exactly if no call has a
`send` that takes only a part. -/
theorem delivered_iff {events : List Sends} (h : run step start events = some s) :
    Along step Delivered start events ↔ ∀ r ∈ events, r.Whole :=
  along_iff_of_fresh ⟨rfl, rfl⟩ h

theorem delivered_of_two :
    Along step Delivered start [⟨.error .eagain, .error .eagain⟩,
      ⟨.bytes httpHeader.length, .bytes epollHello.length⟩] := by
  refine (delivered_iff (s := ⟨response, true⟩) (by decide +kernel)).mpr ?_
  rw [List.forall_mem_cons, List.forall_mem_singleton]
  exact ⟨.inl ⟨_, rfl⟩, .inr ⟨rfl, rfl⟩⟩

/-- A header that is cut after ten bytes, and a body that is refused. -/
theorem not_delivered : ¬ ∀ events s, run step start events = some s →
    Along step Delivered start events := by
  intro all
  have cut : run step start [⟨.bytes 10, .error .eagain⟩] = some ⟨httpHeader.take 10, true⟩ := by
    decide +kernel
  have whole := ((all _ _ cut) _ _ List.prefix_rfl cut).2 rfl
  exact absurd whole.1 (by decide +kernel)

end Sender

section handled

variable {r : Sends} {s : Sender} {c : Conn} {id : Nat}

theorem handle_of_sendResponse (l : Loop) : ∃ outcome t,
    l.handle id c .sendResponse outcome = some t ∧
      (t = l ∧ s.sendResponse r = s ∨
        t = (l.epollDelEvent c).closeConn id c ∧ (s.sendResponse r).closed = true) := by
  obtain ⟨-, same⟩ | ⟨-, closed⟩ := Sender.sendResponse_cases s r
  · exact ⟨.sendFailed, l, rfl, .inl ⟨rfl, same⟩⟩
  · exact ⟨.sent, _, rfl, .inr ⟨rfl, closed⟩⟩

end handled

end Leano.Epoll
