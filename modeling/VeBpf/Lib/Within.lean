import Mathlib.Data.Nat.Notation

/-!
# Bounded response

`Within P n t` says that `P` comes about after time `t` and within `n` steps of
it. The rule that makes such a bound is a rank: a number that every step lowers
unless it brings `P` about.
-/

/-- `P` holds at one of the times `t + 1, …, t + n`. -/
def Within (P : ℕ → Prop) (n t : ℕ) : Prop := ∃ u, t < u ∧ u ≤ t + n ∧ P u

namespace Within

variable {P : ℕ → Prop} {n m t : ℕ}

theorem here (h : P (t + 1)) : Within P (n + 1) t :=
  ⟨t + 1, by omega, by omega, h⟩

/-- The first of the steps has been taken. -/
theorem later (h : Within P n (t + 1)) : Within P (n + 1) t := by
  obtain ⟨u, hlt, hle, hu⟩ := h
  exact ⟨u, by omega, by omega, hu⟩

theorem mono (h : Within P n t) (hnm : n ≤ m) : Within P m t := by
  obtain ⟨u, hlt, hle, hu⟩ := h
  exact ⟨u, hlt, by omega, hu⟩

/-- **A rank bounds the response.** If every step from rank `k` brings `P` about or lowers the
rank, then `P` comes about within one step more than the rank. -/
theorem of_rank {R : ℕ → ℕ → Prop}
    (hstep : ∀ u k, R u k → P (u + 1) ∨ ∃ k', k' < k ∧ R (u + 1) k') (h : R t n) :
    Within P (n + 1) t := by
  induction n using Nat.strongRecOn generalizing t with
  | ind n ih =>
      rcases hstep t n h with hp | ⟨k, hk, hr⟩
      · exact here hp
      · exact (ih k hk hr).later.mono (by omega)

end Within
