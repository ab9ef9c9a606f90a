import Leano.Lib.Run

/-! The abstract first-in first-out channel: what has been sent is what has been received, in the
same order, followed by what is still inside. The law is a field, so no other channel exists. -/

universe u v w

namespace Leano.Lib

structure Channel (T : Type u) where
  sent : List T
  received : List T
  content : List T
  order : sent = received ++ content

namespace Channel

variable {T : Type u}

inductive Act (T : Type u) where
  | send (x : T)
  | receive (n : Nat)

def new : Channel T := ⟨[], [], [], rfl⟩

def send (c : Channel T) (x : T) : Channel T where
  sent := c.sent ++ [x]
  received := c.received
  content := c.content ++ [x]
  order := by simp [c.order]

def receive (c : Channel T) (n : Nat) : Channel T where
  sent := c.sent
  received := c.received ++ c.content.take n
  content := c.content.drop n
  order := by simp [c.order]

def step (c : Channel T) : Act T → Option (Channel T)
  | .send x => some (c.send x)
  | .receive n => if n ≤ c.content.length then some (c.receive n) else none

structure Shows (c : Channel T) (sent received content : List T) : Prop where
  sent_eq : c.sent = sent
  received_eq : c.received = received
  content_eq : c.content = content

theorem Shows.new : Shows (Channel.new : Channel T) [] [] [] := ⟨rfl, rfl, rfl⟩

theorem Shows.law {c : Channel T} {sent received content : List T}
    (h : c.Shows sent received content) : sent = received ++ content := by
  rw [← h.sent_eq, ← h.received_eq, ← h.content_eq, c.order]

theorem Shows.send {c : Channel T} {sent received content : List T}
    (h : c.Shows sent received content) (x : T) :
    ∃ b c', c.step b = some c' ∧ c'.Shows (sent ++ [x]) received (content ++ [x]) :=
  ⟨.send x, c.send x, rfl, by simp [Channel.send, h.sent_eq], h.received_eq,
    by simp [Channel.send, h.content_eq]⟩

theorem Shows.receive {c : Channel T} {sent received xs rest : List T}
    (h : c.Shows sent received (xs ++ rest)) :
    ∃ b c', c.step b = some c' ∧ c'.Shows sent (received ++ xs) rest := by
  refine ⟨.receive xs.length, c.receive xs.length, ?_, h.sent_eq, ?_, ?_⟩
  · simp [Channel.step, h.content_eq]
  · simp [Channel.receive, h.content_eq, h.received_eq]
  · simp [Channel.receive, h.content_eq]

end Channel

end Leano.Lib
