import VeBpf.Lib.Halves
import VeBpf.Proof.Arithmetic

/-!
# Divisions and shifts

These two go through units of their own over several cycles. Whatever the divider
and the shifter did before, and wherever their registers stand, the core writes the
exact quotient, remainder or shift of the operands of the instruction at hand.
-/

namespace VeBpf

/-! ## Shifts as arithmetic -/

namespace ShiftOp

theorem eval_lsh {n : Nat} (v : BitVec n) (s : Nat) : lsh.eval v s = v <<< s := by
  apply BitVec.eq_of_toNat_eq
  show (BitVec.ofNat n (v.toNat * 2 ^ s)).toNat = _
  rw [BitVec.toNat_ofNat, BitVec.toNat_shiftLeft, Nat.shiftLeft_eq]

theorem eval_rsh {n : Nat} (v : BitVec n) (s : Nat) : rsh.eval v s = v >>> s := by
  apply BitVec.eq_of_toNat_eq
  show (BitVec.ofNat n (v.toNat / 2 ^ s)).toNat = _
  rw [BitVec.toNat_ofNat, BitVec.toNat_ushiftRight, Nat.shiftRight_eq_div_pow]
  exact Nat.mod_eq_of_lt (Nat.lt_of_le_of_lt (Nat.div_le_self _ _) v.isLt)

theorem eval_arsh {n : Nat} (v : BitVec n) (s : Nat) : arsh.eval v s = v.sshiftRight s := by
  show BitVec.ofInt n (v.toInt / 2 ^ s) = _
  rw [← BitVec.ofInt_toInt (x := v.sshiftRight s), BitVec.toInt_sshiftRight,
    Int.shiftRight_eq_div_pow]
  norm_cast

/-- **The shifter computes the shift.** -/
theorem request_result (op : ShiftOp) (v c : BitVec 64) :
    (op.request v c).result = op.eval v c.toNat := by
  cases op with
  | lsh => exact (eval_lsh v c.toNat).symm
  | rsh => exact (eval_rsh v c.toNat).symm
  | arsh => exact (eval_arsh v c.toNat).symm

/-! A 32-bit shift is the 64-bit one of the low half, cut to 32 bits; a signed one first extends
the sign. -/

theorem low32_lsh (d : BitVec 64) (s : Nat) :
    low32 (lsh.eval (low32 d) s) = (lsh.eval (d.setWidth 32) s).setWidth 64 := by
  rw [low32_eq, low32_eq]
  congr 1
  apply BitVec.eq_of_toNat_eq
  show ((BitVec.ofNat 64 (((d.setWidth 32).setWidth 64).toNat * 2 ^ s)).setWidth 32).toNat
    = (BitVec.ofNat 32 ((d.setWidth 32).toNat * 2 ^ s)).toNat
  rw [BitVec.toNat_setWidth, BitVec.toNat_ofNat, BitVec.toNat_ofNat,
    Nat.mod_mod_of_dvd _ (by decide), BitVec.toNat_setWidth, BitVec.toNat_setWidth]
  congr 2
  omega

theorem low32_rsh (d : BitVec 64) (s : Nat) :
    low32 (rsh.eval (low32 d) s) = (rsh.eval (d.setWidth 32) s).setWidth 64 := by
  rw [low32_eq, low32_eq]
  congr 1
  apply BitVec.eq_of_toNat_eq
  show ((BitVec.ofNat 64 (((d.setWidth 32).setWidth 64).toNat / 2 ^ s)).setWidth 32).toNat
    = (BitVec.ofNat 32 ((d.setWidth 32).toNat / 2 ^ s)).toNat
  rw [BitVec.toNat_setWidth, BitVec.toNat_ofNat, BitVec.toNat_ofNat,
    Nat.mod_mod_of_dvd _ (by decide), BitVec.toNat_setWidth, BitVec.toNat_setWidth]
  congr 2
  omega

theorem low32_arsh (x : BitVec 32) (s : Nat) :
    low32 (arsh.eval (x.signExtend 64) s) = (arsh.eval x s).setWidth 64 := by
  rw [low32_eq]
  congr 1
  show (BitVec.ofInt 64 ((x.signExtend 64).toInt / 2 ^ s)).setWidth 32
    = BitVec.ofInt 32 (x.toInt / 2 ^ s)
  rw [BitVec.toInt_signExtend_of_le (by omega)]
  apply BitVec.eq_of_toNat_eq
  rw [BitVec.toNat_setWidth, BitVec.toNat_ofInt, BitVec.toNat_ofInt]
  omega

/-- **What a 32-bit shift writes.** -/
theorem low32_request (op : ShiftOp) (d c : BitVec 64) :
    low32 (op.request (if op = arsh then (d.setWidth 32).signExtend 64 else low32 d) c).result
      = (op.eval (d.setWidth 32) c.toNat).setWidth 64 := by
  rw [request_result]
  cases op with
  | lsh => exact low32_lsh d c.toNat
  | rsh => exact low32_rsh d c.toNat
  | arsh => exact low32_arsh (d.setWidth 32) c.toNat

end ShiftOp

/-- The quotient and the remainder of a request are those of the numbers. -/
theorem DivRequest.result_eq (q : DivRequest) :
    q.result = BitVec.ofNat 64 (if q.wantsRemainder then q.dividend.toNat % q.divisor.toNat
      else q.dividend.toNat / q.divisor.toNat) := by
  unfold DivRequest.result
  cases q.wantsRemainder with
  | true =>
      apply BitVec.eq_of_toNat_eq
      rw [if_pos rfl, if_pos rfl, BitVec.toNat_umod, BitVec.toNat_ofNat]
      exact (Nat.mod_eq_of_lt (Nat.lt_of_le_of_lt (Nat.mod_le _ _) q.dividend.isLt)).symm
  | false =>
      apply BitVec.eq_of_toNat_eq
      rw [if_neg (by simp), if_neg (by simp), BitVec.toNat_udiv, BitVec.toNat_ofNat]
      exact (Nat.mod_eq_of_lt (Nat.lt_of_le_of_lt (Nat.div_le_self _ _) q.dividend.isLt)).symm

namespace Sys

variable {s : Sys} {inp : Nat → Inputs} {wide reg : Bool}

/-- The class of an arithmetic opcode by its width. -/
def aluClass (wide : Bool) : BitVec 8 := if wide then opcAlu64 else opcAlu

theorem aluClass_cases (wide : Bool) : aluClass wide = opcAlu ∨ aluClass wide = opcAlu64 := by
  cases wide with
  | true => exact Or.inr rfl
  | false => exact Or.inl rfl

/-! ## Divisions -/

/-- The number to be divided: `regs[dst]`, or its low half. -/
def dividend (s : Sys) (wide : Bool) : Nat :=
  if wide then (s.cpu.regs.read (dstOf s.cpu.instruction)).toNat
  else (s.cpu.regs.read (dstOf s.cpu.instruction)).toNat % 2 ^ 32

/-- The number to divide by: `regs[src]`, its low half, or the immediate. -/
def divisor (s : Sys) (wide reg : Bool) : Nat :=
  if wide then (s.cpu.regs.read (srcOf s.cpu.instruction)).toNat
  else if reg then (s.cpu.regs.read (srcOf s.cpu.instruction)).toNat % 2 ^ 32
  else (immediateOf s.cpu.instruction).toNat

/-- A division asks the divider for its two numbers. -/
theorem dispatch_division (s : Sys) {op : AluOp} (hdiv : op.divides = true)
    (hform : wide = true → reg = true)
    (hop : opcodeOf s.cpu.instruction = op.opcode (aluClass wide) reg) :
    ∃ q keep, s.machine.dispatch s.cpu.instruction
        = s.machine.arith s.cpu.instruction (some q) none keep none
      ∧ q.dividend.toNat = s.dividend wide ∧ q.divisor.toNat = s.divisor wide reg
      ∧ q.wantsRemainder = (op == .mod) := by
  cases wide with
  | true =>
      obtain rfl := hform rfl
      exact ⟨_, _, Machine.dispatch_div64 hdiv hop, rfl, rfl, rfl⟩
  | false =>
      refine ⟨_, _, Machine.dispatch_div32 hdiv hop, toNat_low32 _, ?_, rfl⟩
      rw [toNat_low32]
      cases reg with
      | true => rfl
      | false =>
          show ((immediateOf s.cpu.instruction).setWidth 64).toNat % 2 ^ 32
            = (immediateOf s.cpu.instruction).toNat
          rw [Halves.toNat_zeroExtend, Nat.mod_eq_of_lt (immediateOf s.cpu.instruction).isLt]

/-- **Division and modulo are exact**, at any point of any run: a division sets its destination to
the quotient or the remainder and does nothing else, and one by zero halts the core with an error
after `DIV` has cleared its destination. -/
theorem division_exact (h : s.Begins) (hr : ∀ t, (inp t).resetNInt = true)
    (hreg : badRegisters s.cpu.instruction = false) (op : AluOp) (hdiv : op.divides = true)
    (hform : wide = true → reg = true)
    (hop : opcodeOf s.cpu.instruction = op.opcode (aluClass wide) reg) :
    (s.divisor wide reg ≠ 0 → s.Sets inp (dstOf s.cpu.instruction)
      (BitVec.ofNat 64 (if op = .mod then s.dividend wide % s.divisor wide reg
        else s.dividend wide / s.divisor wide reg)))
    ∧ (s.divisor wide reg = 0 → s.Fails inp
        (if op = .mod then s.cpu.regs else s.cpu.regs.write (dstOf s.cpu.instruction) 0)) := by
  have halu : isAlu s.cpu.instruction := op.isAlu_of_opcode (aluClass_cases wide) hop
  obtain ⟨u, hu⟩ := h.completes_alu hr halu
  obtain ⟨q, keep, hdispatch, hdividend, hdivisor, hwant⟩ := s.dispatch_division hdiv hform hop
  -- the divider is asked for exactly these two numbers
  have hzero : q.divisor = 0 ↔ s.divisor wide reg = 0 := by
    rw [← hdivisor, ← BitVec.toNat_inj]
    rfl
  constructor
  · intro hne
    rw [Machine.arith, if_neg (mt hzero.mp hne), DivRequest.result_eq, hdividend, hdivisor,
      hwant] at hdispatch
    simp only [beq_iff_eq] at hdispatch
    exact h.sets hr hreg hu hdispatch
  · intro hz
    rw [Machine.arith, if_pos (hzero.mpr hz), hwant] at hdispatch
    simp only [beq_iff_eq] at hdispatch
    refine h.fails hr hreg hu (hdispatch.trans ?_)
    by_cases hmod : op = .mod
    · rw [if_pos hmod, if_pos hmod]
      rfl
    · rw [if_neg hmod, if_neg hmod]
      rfl

/-- `MOD r1, 5` on 23, and `DIV64 r1, r0` by zero. -/
theorem division_exact_both :
    (trying 0x9401000000000005#64 23).Sets (fun _ => Inputs.still true) 1 3
    ∧ (trying 0x3f01000000000000#64 23).Fails (fun _ => Inputs.still true)
        ((trying 0x3f01000000000000#64 23).cpu.regs.write 1 0) := by
  constructor
  · exact (@division_exact _ _ false false
      (trying_begins (by decide))
      (fun _ => Inputs.still_resetNInt true) (by decide) .mod rfl (fun hc => by cases hc)
      (by decide)).1 (by decide)
  · exact (@division_exact _ _ true true
      (trying_begins (by decide))
      (fun _ => Inputs.still_resetNInt true) (by decide) .div rfl (fun _ => rfl)
      (by decide)).2 (by decide)

/-! ## Shifts -/

/-- The count: the zero-extended immediate, all of `regs[src]`, or its low half. -/
def shiftCount (s : Sys) (wide reg : Bool) : Nat :=
  if reg then
    if wide then (s.cpu.regs.read (srcOf s.cpu.instruction)).toNat
    else (s.cpu.regs.read (srcOf s.cpu.instruction)).toNat % 2 ^ 32
  else (immediateOf s.cpu.instruction).toNat

/-- What the shift delivers, zero-extended: at 64 bits, or at 32 bits on the low half. -/
def shifted (s : Sys) (op : ShiftOp) (wide reg : Bool) : BitVec 64 :=
  if wide then op.eval (s.cpu.regs.read (dstOf s.cpu.instruction)) (s.shiftCount wide reg)
  else (op.eval ((s.cpu.regs.read (dstOf s.cpu.instruction)).setWidth 32)
    (s.shiftCount wide reg)).setWidth 64

/-- **Shifts are exact for every count**, at any point of any run. -/
theorem shift_exact (h : s.Begins) (hr : ∀ t, (inp t).resetNInt = true)
    (hreg : badRegisters s.cpu.instruction = false) (op : ShiftOp)
    (hop : opcodeOf s.cpu.instruction = op.opcode (aluClass wide) reg) :
    s.Sets inp (dstOf s.cpu.instruction) (s.shifted op wide reg) := by
  have halu : isAlu s.cpu.instruction := op.isAlu_of_opcode (aluClass_cases wide) hop
  obtain ⟨u, hu⟩ := h.completes_alu hr halu
  have himm := Halves.toNat_zeroExtend (immediateOf s.cpu.instruction)
  refine h.sets hr hreg hu ?_
  cases wide with
  | true =>
      rw [Machine.dispatch_shift64 hop, ShiftOp.request_result]
      cases reg with
      | true => rfl
      | false =>
          rw [show (s.machine.operand s.cpu.instruction false).toNat
            = (immediateOf s.cpu.instruction).toNat from himm]
          rfl
  | false =>
      rw [Machine.dispatch_shift32 hop, ShiftOp.low32_request]
      cases reg with
      | true =>
          rw [if_pos rfl, toNat_low32]
          rfl
      | false =>
          rw [if_neg (by simp), himm]
          rfl

/-- `ARSH r1, 33` on a negative 32-bit word leaves the sign in every bit of the low half. -/
theorem shift_exact_arsh :
    (trying 0xc401000000000021#64 0x80000000).Sets (fun _ => Inputs.still true) 1 0xffffffff :=
  @shift_exact _ _ false false
    (trying_begins (by decide))
    (fun _ => Inputs.still_resetNInt true) (by decide) .arsh (by decide)

end Sys

end VeBpf
