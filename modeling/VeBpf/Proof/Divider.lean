import VeBpf.Proof.Units

/-!
# The divider on its own

At every width and from every state of its registers a pulse of the strobe starts
the division afresh. What the registers held before, finished or not, is
overwritten by the load, so the invariant `Busy` needs nothing of it.
-/

namespace VeBpf

open RestoringDivision

namespace Divider

variable {w : Nat} {d : Divider w} {inp : Nat → Ports w} {a b : BitVec w} {k : Nat}

/-- The strobe hands over `a` and `b` at the first edge, and stays low for the next `k`. -/
structure Pulsed (inp : Nat → Ports w) (a b : BitVec w) (k : Nat) : Prop where
  load : inp 0 = ⟨true, a, b, true⟩
  idle : ∀ t, 0 < t → t ≤ k → (inp t).resetN = true ∧ (inp t).stb = false

theorem run_idle {t : Nat} (h : (inp t).resetN = true ∧ (inp t).stb = false) :
    run inp d (t + 1) = (run inp d t).step true (inp t).dividend (inp t).divisor false := by
  rw [run, h.1, h.2]

/-- **Where the division stands `k` edges after the loading edge.** -/
theorem busy_run (hw : 0 < w) (hb : b ≠ 0#w) (h : Pulsed inp a b k) :
    Busy (run inp d (k + 1)) a b (w - k) := by
  induction k with
  | zero =>
      rw [run, run, h.load]
      exact busy_load d a hb
  | succ k ih =>
      have hbusy := ih ⟨h.load, fun t h0 ht => h.idle t h0 (by omega)⟩
      rw [run_idle (h.idle (k + 1) (by omega) (by omega))]
      rcases Nat.lt_or_ge k w with hlt | hge
      · -- one bit of the quotient is found
        rw [show w - k = w - (k + 1) + 1 by omega] at hbusy
        exact hbusy.step hw (by omega) hb _ _
      · -- the counter has run down and holds the registers
        rw [show w - k = 0 by omega] at hbusy
        rw [step_of_ack (hbusy.ack_iff.mpr rfl), show w - (k + 1) = 0 by omega]
        exact hbusy

/-- The upper half of the register stays below the divisor. -/
theorem Busy.remainder_lt {n : Nat} (h : Busy d a b n) (hn : n ≤ w) (hb : b ≠ 0#w) :
    d.remainder.toNat < b.toNat := by
  have hhigh := divState_high_lt (n := n) a.isLt hn (BitVec.toNat_pos_of_ne_zero hb)
  rw [← h.qr] at hhigh
  have hfit : d.qr.toNat / 2 ^ w < 2 ^ w := Nat.lt_trans hhigh b.isLt
  unfold remainder
  rw [BitVec.extractLsb'_toNat, Nat.shiftRight_eq_div_pow, Nat.mod_eq_of_lt hfit]
  exact hhigh

/-- **The restoring divider is correct at every width.** From any state of its registers a pulse of
the strobe loads `a` and `b`. While the strobe stays low, the acknowledge is low until `w` edges
after the loading edge and high from then on, with the quotient and the remainder at the outputs;
and after every edge the upper half of the register is below `b` and the top bit of the trial
subtraction is its borrow. -/
theorem division_correct (hw : 2 ≤ w) (d : Divider w) (hb : b ≠ 0#w) (h : Pulsed inp a b k) :
    ((run inp d (k + 1)).ack = true ↔ w ≤ k)
    ∧ (run inp d (k + 1)).err = false
    ∧ (w ≤ k → (run inp d (k + 1)).quotient.toNat = a.toNat / b.toNat
        ∧ (run inp d (k + 1)).remainder.toNat = a.toNat % b.toNat)
    ∧ ((run inp d (k + 1)).qr.extractLsb' w w).toNat < b.toNat
    ∧ ((run inp d (k + 1)).diff.getLsbD w = true
        ↔ ((run inp d (k + 1)).qr.extractLsb' (w - 1) (w + 1)).toNat < b.toNat) := by
  have hpos : 0 < w := by omega
  have hbusy := busy_run (d := d) hpos hb h
  have hle : w - k ≤ w := Nat.sub_le w k
  refine ⟨?_, hbusy.err, ?_, hbusy.remainder_lt hle hb, ?_⟩
  · rw [hbusy.ack_iff, Nat.sub_eq_zero_iff_le]
  · intro hk
    rw [show w - k = 0 by omega] at hbusy
    obtain ⟨hq, hr⟩ := hbusy.result hb
    rw [hq, hr, BitVec.toNat_udiv, BitVec.toNat_umod]
    exact ⟨rfl, rfl⟩
  · rw [hbusy.toNat_trial hpos hle hb]
    exact (diff_sign hpos hbusy hle hb).1

/-- 7 divided by 2 at four bits, on a divider that has just failed on a zero divisor. -/
theorem division_correct_seven :
    let inp : Nat → Ports 4 := fun t => if t = 0 then ⟨true, 7, 2, true⟩ else ⟨true, 0, 0, false⟩
    let d : Divider 4 := ⟨0, 0, 0, true⟩
    (run inp d 5).ack = true ∧ (run inp d 5).err = false ∧ (run inp d 5).quotient.toNat = 3
      ∧ (run inp d 5).remainder.toNat = 1 := by
  intro inp d
  have hpulse : Pulsed inp 7 2 4 := ⟨rfl, fun t h0 _ => by simp [inp, Nat.ne_of_gt h0]⟩
  obtain ⟨hack, herr, hval, -⟩ := division_correct (by decide) d (by decide) hpulse
  exact ⟨hack.mpr (by decide), herr, hval (by decide)⟩

end Divider

end VeBpf
