import Mathlib.Algebra.Group.Nat.Defs
import Mathlib.Logic.Basic
import Mathlib.Tactic.SplitIfs

/-!
# Words by halves

A 64-bit word as two 32-bit halves, and the two ways of making one from a 32-bit
word. The zero extension and the sign extension of a negative word differ in the
whole upper half, and the results below say for each operation when that makes no
difference.
-/

namespace Halves

/-! ## The halves of a word -/

/-- A word is its two halves. -/
theorem eq_iff_halves (x y : BitVec 64) :
    x = y ↔ x.extractLsb' 32 32 = y.extractLsb' 32 32 ∧ x.setWidth 32 = y.setWidth 32 := by
  constructor
  · rintro rfl
    exact ⟨rfl, rfl⟩
  · rintro ⟨hupper, hlower⟩
    have h1 := congrArg BitVec.toNat hupper
    have h2 := congrArg BitVec.toNat hlower
    rw [BitVec.extractLsb'_toNat, BitVec.extractLsb'_toNat, Nat.shiftRight_eq_div_pow,
      Nat.shiftRight_eq_div_pow] at h1
    rw [BitVec.toNat_setWidth, BitVec.toNat_setWidth] at h2
    have hx := x.isLt
    have hy := y.isLt
    apply BitVec.eq_of_toNat_eq
    omega

theorem toInt_halves (d : BitVec 64) :
    d.toInt = (d.extractLsb' 32 32).toInt * 4294967296 + (d.setWidth 32).toNat := by
  have hd := d.isLt
  rw [BitVec.toInt_eq_toNat_cond, BitVec.toInt_eq_toNat_cond, BitVec.extractLsb'_toNat,
    BitVec.toNat_setWidth, Nat.shiftRight_eq_div_pow]
  split_ifs <;> omega

theorem toInt_low (x : BitVec 32) :
    x.toInt = (x.toNat : Int) - if x.msb then 4294967296 else 0 := by
  rw [BitVec.toInt_eq_msb_cond]
  cases x.msb <;> rfl

theorem lower_extract (x : BitVec 64) : x.extractLsb' 0 32 = x.setWidth 32 := by
  ext j hj
  simp

/-- Two halves put together. -/
theorem toNat_join (u l : BitVec 32) :
    (u ++ l : BitVec 64).toNat = u.toNat * 2 ^ 32 + l.toNat := by
  rw [BitVec.toNat_append, ← Nat.shiftLeft_add_eq_or_of_lt l.isLt, Nat.shiftLeft_eq]

/-! ## Extensions -/

section Extensions

variable {i : BitVec 32}

theorem toNat_zeroExtend (i : BitVec 32) : (i.setWidth 64).toNat = i.toNat := by
  rw [BitVec.toNat_setWidth]
  exact Nat.mod_eq_of_lt (Nat.lt_trans i.isLt (by decide))

/-- The two extensions of a negative immediate differ by the upper half. -/
theorem toNat_signExtend (h : i.msb = true) :
    (i.signExtend 64).toNat = i.toNat + 0xffffffff00000000 := by
  have hi := i.isLt
  rw [BitVec.signExtend_eq_not_setWidth_not_of_msb_true h, BitVec.toNat_not,
    BitVec.toNat_setWidth, BitVec.toNat_not]
  omega

theorem upper_zeroExtend (i : BitVec 32) : (i.setWidth 64).extractLsb' 32 32 = 0#32 := by
  have hi := i.isLt
  apply BitVec.eq_of_toNat_eq
  rw [BitVec.extractLsb'_toNat, toNat_zeroExtend, Nat.shiftRight_eq_div_pow]
  show _ = 0
  omega

theorem upper_signExtend (h : i.msb = true) :
    (i.signExtend 64).extractLsb' 32 32 = BitVec.allOnes 32 := by
  have hi := i.isLt
  apply BitVec.eq_of_toNat_eq
  rw [BitVec.extractLsb'_toNat, toNat_signExtend h, Nat.shiftRight_eq_div_pow]
  show _ = 4294967295
  omega

theorem lower_zeroExtend (i : BitVec 32) : (i.setWidth 64).setWidth 32 = i := by
  rw [BitVec.setWidth_setWidth_of_le _ (by omega), BitVec.setWidth_eq]

theorem lower_signExtend (i : BitVec 32) : (i.signExtend 64).setWidth 32 = i := by
  apply BitVec.eq_of_toInt_eq
  rw [← BitVec.signExtend_eq_setWidth_of_le _ (by omega), BitVec.toInt_signExtend,
    BitVec.toInt_signExtend_of_le (by omega)]
  exact BitVec.toInt_bmod_cancel _

theorem extensions_ne (h : i.msb = true) : i.signExtend 64 ≠ i.setWidth 64 := by
  intro heq
  have hn := congrArg BitVec.toNat heq
  rw [toNat_signExtend h, toNat_zeroExtend] at hn
  omega

/-! ## Where the extension does not matter -/

variable (d : BitVec 64)

theorem mul_extensions (h : i.msb = true) :
    d * i.signExtend 64 = d * i.setWidth 64 ↔ d.setWidth 32 = 0#32 := by
  have hi := i.isLt
  have hd := d.isLt
  -- the two extensions differ by 2^32
  have hneg : i.signExtend 64 + 4294967296#64 = i.setWidth 64 := by
    apply BitVec.eq_of_toNat_eq
    rw [BitVec.toNat_add, toNat_signExtend h, toNat_zeroExtend, BitVec.toNat_ofNat]
    omega
  have hsum : d * i.signExtend 64 = d * i.setWidth 64 ↔ d * 4294967296#64 = 0#64 := by
    rw [← hneg, BitVec.mul_add, eq_comm]
    exact BitVec.add_right_eq_self
  rw [hsum, ← BitVec.toNat_inj, ← BitVec.toNat_inj, BitVec.toNat_mul, BitVec.toNat_setWidth]
  show d.toNat * 4294967296 % 18446744073709551616 = 0 ↔ d.toNat % 4294967296 = 0
  omega

theorem or_extensions (h : i.msb = true) :
    d ||| i.signExtend 64 = d ||| i.setWidth 64 ↔ d.extractLsb' 32 32 = BitVec.allOnes 32 := by
  rw [eq_iff_halves, BitVec.extractLsb'_or, BitVec.extractLsb'_or, upper_signExtend h,
    upper_zeroExtend, BitVec.setWidth_or, BitVec.setWidth_or, lower_signExtend, lower_zeroExtend,
    BitVec.or_allOnes, BitVec.or_zero, and_iff_left rfl, eq_comm]

theorem and_extensions (h : i.msb = true) :
    d &&& i.signExtend 64 = d &&& i.setWidth 64 ↔ d.extractLsb' 32 32 = 0#32 := by
  rw [eq_iff_halves, BitVec.extractLsb'_and, BitVec.extractLsb'_and, upper_signExtend h,
    upper_zeroExtend, BitVec.setWidth_and, BitVec.setWidth_and, lower_signExtend, lower_zeroExtend,
    BitVec.and_allOnes, BitVec.and_zero, and_iff_left rfl]

/-- Whether there are common bits depends on the upper half of `d` with one extension only. -/
theorem and_signExtend_eq_zero (h : i.msb = true) :
    d &&& i.signExtend 64 = 0#64
      ↔ d.extractLsb' 32 32 = 0#32 ∧ d.setWidth 32 &&& i = 0#32 := by
  rw [eq_iff_halves, BitVec.extractLsb'_and, upper_signExtend h, BitVec.and_allOnes,
    BitVec.setWidth_and, lower_signExtend, BitVec.setWidth_zero]
  rfl

theorem and_zeroExtend_eq_zero (d : BitVec 64) (i : BitVec 32) :
    d &&& i.setWidth 64 = 0#64 ↔ d.setWidth 32 &&& i = 0#32 := by
  rw [eq_iff_halves, BitVec.extractLsb'_and, upper_zeroExtend, BitVec.and_zero,
    BitVec.setWidth_and, lower_zeroExtend, BitVec.setWidth_zero]
  exact and_iff_right rfl

theorem two_pow_le_of_msb (h : i.msb = true) : 2 ^ 31 ≤ i.toNat := by
  rw [BitVec.msb_eq_decide] at h
  simpa using h

theorem div_extensions (h : i.msb = true) :
    d / i.signExtend 64 = d / i.setWidth 64 ↔ d.toNat < i.toNat := by
  have hd := d.isLt
  have hi := i.isLt
  have hlow := two_pow_le_of_msb h
  rw [← BitVec.toNat_inj, BitVec.toNat_udiv, BitVec.toNat_udiv, toNat_signExtend h,
    toNat_zeroExtend]
  by_cases hlt : d.toNat < i.toNat
  · rw [Nat.div_eq_of_lt hlt, Nat.div_eq_of_lt (by omega)]
    exact iff_of_true rfl hlt
  · refine iff_of_false ?_ hlt
    intro heq
    by_cases hbig : d.toNat < i.toNat + 0xffffffff00000000
    · rw [Nat.div_eq_of_lt hbig] at heq
      have := Nat.div_pos (Nat.le_of_not_lt hlt) (by omega)
      omega
    · have hdouble : d.toNat < (i.toNat + 0xffffffff00000000) * 2 := by
        rw [Nat.add_mul]
        omega
      have hone := Nat.div_lt_of_lt_mul hdouble
      have hpos : 0 < i.toNat := by omega
      have htwice : 2 * i.toNat ≤ d.toNat := by omega
      have htwo := (Nat.le_div_iff_mul_le hpos).mpr htwice
      omega

theorem mod_extensions (h : i.msb = true) :
    d % i.signExtend 64 = d % i.setWidth 64 ↔ d.toNat < i.toNat
      ∨ (i.toNat + 0xffffffff00000000 ≤ d.toNat ∧ i.toNat ∣ 0xffffffff00000000) := by
  have hd := d.isLt
  have hi := i.isLt
  have hlow := two_pow_le_of_msb h
  rw [← BitVec.toNat_inj, BitVec.toNat_umod, BitVec.toNat_umod, toNat_signExtend h,
    toNat_zeroExtend]
  by_cases hlt : d.toNat < i.toNat
  · rw [Nat.mod_eq_of_lt hlt, Nat.mod_eq_of_lt (by omega)]
    exact iff_of_true rfl (Or.inl hlt)
  · have hrem := Nat.mod_lt d.toNat (show 0 < i.toNat by omega)
    by_cases hbig : d.toNat < i.toNat + 0xffffffff00000000
    · rw [Nat.mod_eq_of_lt hbig]
      refine iff_of_false (by omega) (by omega)
    · have hmod : d.toNat % (i.toNat + 0xffffffff00000000)
          = d.toNat - (i.toNat + 0xffffffff00000000) := by
        rw [Nat.mod_eq_sub_mod (by omega), Nat.mod_eq_of_lt (by omega)]
      rw [hmod]
      constructor
      · intro heq
        have hdm := Nat.div_add_mod d.toNat i.toNat
        have hsum : i.toNat + 0xffffffff00000000 = i.toNat * (d.toNat / i.toNat) := by omega
        exact Or.inr ⟨by omega, (Nat.dvd_add_right (Nat.dvd_refl i.toNat)).mp
          (hsum ▸ Nat.dvd_mul_right _ _)⟩
      · rintro (hc | ⟨_, hdvd⟩)
        · exact absurd hc hlt
        · obtain ⟨k, hk⟩ := (Nat.dvd_add_right (Nat.dvd_refl i.toNat)).mpr hdvd
          obtain ⟨r, hr⟩ : ∃ r, r = d.toNat - (i.toNat + 0xffffffff00000000) := ⟨_, rfl⟩
          have hsplit : d.toNat = i.toNat * k + r := by omega
          rw [← hr, hsplit, Nat.mul_add_mod, Nat.mod_eq_of_lt (by omega)]

end Extensions

end Halves
