import Leano.Lib.Monitor

/-! What the calls of a monitor have still ahead of them, as a number that a wake-up raises by one
and that a critical section therefore has to lower by more than the wake-ups it sends. -/

universe u v w

namespace Leano.Lib

variable {Op : Type u} {Res : Type v} {on : Op → Bool} {op : Op} {ph : Phase Op Res}

def Phase.load (base : Op → Nat) (after : Res → Nat) : Phase Op Res → Nat
  | .idle => 0
  | .ready op => base op + 2
  | .woken op => base op + 1
  | .blocked op => base op
  | .returned r => after r

variable {base : Op → Nat} {after : Res → Nat}

theorem Phase.load_section (h : ph.section? = some op) : base op < ph.load base after := by
  cases ph with
  | ready o => cases h; exact Nat.lt_add_of_pos_right Nat.two_pos
  | woken o => cases h; exact Nat.lt_succ_self _
  | _ => cases h

theorem Phase.load_wake (ph : Phase Op Res) :
    (ph.wake on).load base after ≤ ph.load base after + 1 := by
  cases ph with
  | blocked o =>
    simp only [Phase.wake]
    split
    · exact le_rfl
    · exact Nat.le_succ _
  | _ => exact Nat.le_succ _

variable {ι : Type w} {th th' : ι → Phase Op Res}

theorem Notified.section [DecidableEq ι] {t : ι} (h : Notified on th th')
    (hop : (th t).section? = some op) : th' t = th t := by
  rcases h.at t with same | ⟨o, blocked, -⟩
  · exact same
  · rw [blocked] at hop
    cases hop

theorem notifyAll_section {t : ι} (h : (th t).section? = some op) : notifyAll on th t = th t := by
  rcases notifyAll_at on th t with same | ⟨o, blocked, -⟩
  · exact same
  · rw [blocked] at h
    cases h

variable [Fintype ι]

theorem load_notifyAll : total (Phase.load base after) (notifyAll on th) ≤
    total (Phase.load base after) th + Fintype.card ι := by
  calc
    total (Phase.load base after) (notifyAll on th) ≤
        ∑ t, ((th t).load base after + 1) := Finset.sum_le_sum fun t _ => (th t).load_wake
    _ = total (Phase.load base after) th + Fintype.card ι := by
      rw [Finset.sum_add_distrib, Finset.sum_const, Finset.card_univ, Nat.nsmul_eq_mul, mul_one]
      rfl

theorem Notified.load [DecidableEq ι] (h : Notified on th th') :
    total (Phase.load base after) th' ≤ total (Phase.load base after) th + 1 := by
  cases h with
  | @woke t op ht =>
    have moved := total_update (Phase.load base after) th t (.woken op)
    simp only [ht, Phase.load] at moved
    omega
  | nobody => exact Nat.le_succ _

end Leano.Lib
