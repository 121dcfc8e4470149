import Mathlib.Data.Nat.Basic
import Mathlib.Tactic.Ring

/-!
# Restoring division

The one-bit-per-step division of `a` by `b` in a double-width register. The upper
half holds the partial remainder and the lower half the bits of `a` still to come
above the quotient bits already found. A step shifts left by one, tries to
subtract `b` from the upper half, and keeps the difference and a quotient bit 1
when it does not go negative.

`divState w a b n` says outright what the register holds with `n` of the `w` bits
still to come; `divStep` is the step. They agree.
-/

namespace RestoringDivision

/-- The register with the lowest `n` bits of `a` still to come. -/
def divState (w a b n : Nat) : Nat :=
  a / 2 ^ n % b * 2 ^ w + (a % 2 ^ n * 2 ^ (w - n) + a / 2 ^ n / b)

/-- One step on the register. -/
def divStep (w b qr : Nat) : Nat :=
  if qr / 2 ^ (w - 1) < b then 2 * qr
  else (qr / 2 ^ (w - 1) - b) * 2 ^ w + (2 * qr % 2 ^ w + 1)

variable {w a b n : Nat}

theorem divState_start (ha : a < 2 ^ w) : divState w a b w = a := by
  have hz : a / 2 ^ w = 0 := Nat.div_eq_of_lt ha
  simp [divState, hz, Nat.mod_eq_of_lt ha]

theorem divState_done (w a b : Nat) : divState w a b 0 = a % b * 2 ^ w + a / b := by
  simp [divState, Nat.mod_one]

/-- The bits to come and the quotient bits share the lower half without overlap. -/
theorem divState_low_lt (ha : a < 2 ^ w) (hn : n ≤ w) :
    a % 2 ^ n * 2 ^ (w - n) + a / 2 ^ n / b < 2 ^ w := by
  have hsplit : 2 ^ n * 2 ^ (w - n) = 2 ^ w := by
    rw [← Nat.pow_add]; congr 1; omega
  have hlow : a % 2 ^ n + 1 ≤ 2 ^ n := Nat.mod_lt _ (Nat.two_pow_pos n)
  have hq : a / 2 ^ n / b < 2 ^ (w - n) := by
    refine Nat.lt_of_le_of_lt (Nat.div_le_self _ _) (Nat.div_lt_of_lt_mul ?_)
    rw [hsplit]; exact ha
  calc a % 2 ^ n * 2 ^ (w - n) + a / 2 ^ n / b
      < a % 2 ^ n * 2 ^ (w - n) + 2 ^ (w - n) := Nat.add_lt_add_left hq _
    _ = (a % 2 ^ n + 1) * 2 ^ (w - n) := by ring
    _ ≤ 2 ^ n * 2 ^ (w - n) := Nat.mul_le_mul_right _ hlow
    _ = 2 ^ w := hsplit

/-- **The partial remainder stays below the divisor**, so twice it and a bit still fits. -/
theorem divState_high_lt (ha : a < 2 ^ w) (hn : n ≤ w) (hb : 0 < b) :
    divState w a b n / 2 ^ w < b := by
  unfold divState
  rw [Nat.mul_comm, Nat.mul_add_div (Nat.two_pow_pos w),
    Nat.div_eq_of_lt (divState_low_lt ha hn), Nat.add_zero]
  exact Nat.mod_lt _ hb

/-- The next bit of `a` moves from the bits to come to the bits taken. -/
theorem take_bit (a n : Nat) :
    a / 2 ^ n = 2 * (a / 2 ^ (n + 1)) + a % 2 ^ (n + 1) / 2 ^ n
    ∧ a % 2 ^ (n + 1) = a % 2 ^ (n + 1) / 2 ^ n * 2 ^ n + a % 2 ^ n
    ∧ a % 2 ^ (n + 1) / 2 ^ n < 2 := by
  have hpow : 2 ^ (n + 1) = 2 * 2 ^ n := by rw [Nat.pow_succ, Nat.mul_comm]
  have hlt : a % 2 ^ (n + 1) / 2 ^ n < 2 := by
    refine Nat.div_lt_of_lt_mul ?_
    rw [Nat.mul_comm, ← hpow]
    exact Nat.mod_lt _ (Nat.two_pow_pos _)
  have hmod : a % 2 ^ (n + 1) % 2 ^ n = a % 2 ^ n := by
    rw [Nat.mod_mod_of_dvd _ ⟨2, by rw [hpow, Nat.mul_comm]⟩]
  refine ⟨?_, ?_, hlt⟩
  · have ha := Nat.div_add_mod a (2 ^ (n + 1))
    calc a / 2 ^ n = (2 ^ (n + 1) * (a / 2 ^ (n + 1)) + a % 2 ^ (n + 1)) / 2 ^ n := by rw [ha]
      _ = (2 ^ n * (2 * (a / 2 ^ (n + 1))) + a % 2 ^ (n + 1)) / 2 ^ n := by
          rw [hpow]; congr 2; ring
      _ = 2 * (a / 2 ^ (n + 1)) + a % 2 ^ (n + 1) / 2 ^ n :=
          Nat.mul_add_div (Nat.two_pow_pos n) _ _
  · have h := Nat.div_add_mod (a % 2 ^ (n + 1)) (2 ^ n)
    rw [hmod] at h
    rw [Nat.mul_comm]
    exact h.symm

/-- The bits that the trial subtraction sees: twice the partial remainder and the next bit. -/
theorem divState_top (ha : a < 2 ^ w) (hn : n < w) :
    divState w a b (n + 1) / 2 ^ (w - 1)
      = 2 * (a / 2 ^ (n + 1) % b) + a % 2 ^ (n + 1) / 2 ^ n := by
  obtain ⟨_, hbit, _⟩ := take_bit a n
  have hlow := divState_low_lt (b := b) ha (Nat.le_of_lt hn)
  have hrest : a % 2 ^ n * 2 ^ (w - (n + 1)) + a / 2 ^ (n + 1) / b < 2 ^ (w - 1) := by
    have hq : a / 2 ^ (n + 1) / b < 2 ^ (w - (n + 1)) := by
      refine Nat.lt_of_le_of_lt (Nat.div_le_self _ _) (Nat.div_lt_of_lt_mul ?_)
      rw [← Nat.pow_add, show n + 1 + (w - (n + 1)) = w by omega]; exact ha
    have hm : a % 2 ^ n + 1 ≤ 2 ^ n := Nat.mod_lt _ (Nat.two_pow_pos n)
    calc a % 2 ^ n * 2 ^ (w - (n + 1)) + a / 2 ^ (n + 1) / b
        < a % 2 ^ n * 2 ^ (w - (n + 1)) + 2 ^ (w - (n + 1)) := Nat.add_lt_add_left hq _
      _ = (a % 2 ^ n + 1) * 2 ^ (w - (n + 1)) := by ring
      _ ≤ 2 ^ n * 2 ^ (w - (n + 1)) := Nat.mul_le_mul_right _ hm
      _ = 2 ^ (w - 1) := by rw [← Nat.pow_add]; congr 1; omega
  have hw : 2 ^ w = 2 ^ (w - 1) * 2 := by
    rw [← Nat.pow_succ]; congr 1; omega
  have hnw : 2 ^ n * 2 ^ (w - (n + 1)) = 2 ^ (w - 1) := by
    rw [← Nat.pow_add]; congr 1; omega
  have hsplit : divState w a b (n + 1)
      = 2 ^ (w - 1) * (2 * (a / 2 ^ (n + 1) % b) + a % 2 ^ (n + 1) / 2 ^ n)
        + (a % 2 ^ n * 2 ^ (w - (n + 1)) + a / 2 ^ (n + 1) / b) := by
    calc divState w a b (n + 1)
        = a / 2 ^ (n + 1) % b * (2 ^ (w - 1) * 2)
          + ((a % 2 ^ (n + 1) / 2 ^ n * 2 ^ n + a % 2 ^ n) * 2 ^ (w - (n + 1))
            + a / 2 ^ (n + 1) / b) := by rw [← hbit, ← hw]; rfl
      _ = a / 2 ^ (n + 1) % b * (2 ^ (w - 1) * 2)
          + (a % 2 ^ (n + 1) / 2 ^ n * (2 ^ n * 2 ^ (w - (n + 1)))
            + (a % 2 ^ n * 2 ^ (w - (n + 1)) + a / 2 ^ (n + 1) / b)) := by ring
      _ = _ := by rw [hnw]; ring
  rw [hsplit, Nat.mul_add_div (Nat.two_pow_pos _), Nat.div_eq_of_lt hrest, Nat.add_zero]

/-- What doubling does to the lower half. -/
theorem divState_low_double (hn : n < w) :
    2 * (a % 2 ^ (n + 1) * 2 ^ (w - (n + 1)) + a / 2 ^ (n + 1) / b)
      = a % 2 ^ (n + 1) / 2 ^ n * 2 ^ w
        + (a % 2 ^ n * 2 ^ (w - n) + 2 * (a / 2 ^ (n + 1) / b)) := by
  obtain ⟨_, hbit, _⟩ := take_bit a n
  have hwn : 2 ^ (w - n) = 2 * 2 ^ (w - (n + 1)) := by
    rw [Nat.mul_comm, ← Nat.pow_succ]; congr 1; omega
  have hnw : 2 ^ n * 2 ^ (w - n) = 2 ^ w := by
    rw [← Nat.pow_add]; congr 1; omega
  calc 2 * (a % 2 ^ (n + 1) * 2 ^ (w - (n + 1)) + a / 2 ^ (n + 1) / b)
      = a % 2 ^ (n + 1) * (2 * 2 ^ (w - (n + 1))) + 2 * (a / 2 ^ (n + 1) / b) := by ring
    _ = (a % 2 ^ (n + 1) / 2 ^ n * 2 ^ n + a % 2 ^ n) * 2 ^ (w - n)
        + 2 * (a / 2 ^ (n + 1) / b) := by rw [← hbit, hwn]
    _ = a % 2 ^ (n + 1) / 2 ^ n * (2 ^ n * 2 ^ (w - n))
        + (a % 2 ^ n * 2 ^ (w - n) + 2 * (a / 2 ^ (n + 1) / b)) := by ring
    _ = _ := by rw [hnw]

/-- Quotient and remainder after one more bit. -/
theorem div_mod_double {p t : Nat} (hb : 0 < b) (ht : t < 2) :
    ((2 * p + t) / b = 2 * (p / b) + (if 2 * (p % b) + t < b then 0 else 1))
    ∧ ((2 * p + t) % b = 2 * (p % b) + t - (if 2 * (p % b) + t < b then 0 else b)) := by
  have hp := Nat.div_add_mod p b
  have hr := Nat.mod_lt p hb
  have heq : 2 * p + t = b * (2 * (p / b)) + (2 * (p % b) + t) := by
    calc 2 * p + t = 2 * (b * (p / b) + p % b) + t := by rw [hp]
      _ = _ := by ring
  rw [heq, Nat.mul_add_div hb, Nat.mul_add_mod]
  by_cases hlt : 2 * (p % b) + t < b
  · simp [hlt, Nat.div_eq_of_lt hlt, Nat.mod_eq_of_lt hlt]
  · have hle : b ≤ 2 * (p % b) + t := Nat.le_of_not_lt hlt
    have hsub : 2 * (p % b) + t - b < b := by omega
    simp only [hlt, if_false]
    rw [Nat.div_eq_sub_div hb hle, Nat.mod_eq_sub_mod hle, Nat.div_eq_of_lt hsub,
      Nat.mod_eq_of_lt hsub]
    simp

/-- **One step takes one bit.** -/
theorem divStep_divState (ha : a < 2 ^ w) (hb : 0 < b) (hn : n < w) :
    divStep w b (divState w a b (n + 1)) = divState w a b n := by
  obtain ⟨htake, _, hbit⟩ := take_bit a n
  obtain ⟨hdiv, hmod⟩ := div_mod_double (p := a / 2 ^ (n + 1)) hb hbit
  have hlow := divState_low_double (a := a) (b := b) hn
  have hdouble : 2 * divState w a b (n + 1)
      = (2 * (a / 2 ^ (n + 1) % b) + a % 2 ^ (n + 1) / 2 ^ n) * 2 ^ w
        + (a % 2 ^ n * 2 ^ (w - n) + 2 * (a / 2 ^ (n + 1) / b)) := by
    calc 2 * divState w a b (n + 1)
        = 2 * (a / 2 ^ (n + 1) % b) * 2 ^ w
          + 2 * (a % 2 ^ (n + 1) * 2 ^ (w - (n + 1)) + a / 2 ^ (n + 1) / b) := by
          unfold divState; ring
      _ = _ := by rw [hlow]; ring
  unfold divStep
  rw [divState_top ha hn, hdouble]
  by_cases hlt : 2 * (a / 2 ^ (n + 1) % b) + a % 2 ^ (n + 1) / 2 ^ n < b
  · rw [if_pos hlt] at hdiv hmod ⊢
    unfold divState
    rw [htake, hdiv, hmod]
    rfl
  · rw [if_neg hlt] at hdiv hmod ⊢
    have hfit := divState_low_lt (b := b) ha (Nat.le_of_lt hn)
    rw [htake, hdiv] at hfit
    have hlower : ((2 * (a / 2 ^ (n + 1) % b) + a % 2 ^ (n + 1) / 2 ^ n) * 2 ^ w
        + (a % 2 ^ n * 2 ^ (w - n) + 2 * (a / 2 ^ (n + 1) / b))) % 2 ^ w
        = a % 2 ^ n * 2 ^ (w - n) + 2 * (a / 2 ^ (n + 1) / b) := by
      rw [Nat.mul_add_mod', Nat.mod_eq_of_lt (by omega)]
    rw [hlower]
    unfold divState
    rw [htake, hdiv, hmod]
    rfl

end RestoringDivision
