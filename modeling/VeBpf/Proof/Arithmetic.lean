import VeBpf.Isa.Operations
import VeBpf.Proof.Instructions

/-!
# Arithmetic

What the core writes for the operations of `VeBpf.Isa.Operations`, and where it is
not what they say: `NEG64` reads the wrong register, and a 32-bit `MOV` between
registers copies all 64 bits.
-/

namespace VeBpf

/-! ## Words and their low halves -/

/-- The low half is the whole word exactly if the upper half is zero. -/
theorem low32_eq_self (x : BitVec 64) : low32 x = x ↔ x >>> 32 = 0 := by
  rw [low32_eq, ← BitVec.toNat_inj, ← BitVec.toNat_inj, BitVec.toNat_setWidth,
    BitVec.toNat_setWidth, BitVec.toNat_ushiftRight, Nat.shiftRight_eq_div_pow]
  have hx := x.isLt
  have hzero : (0 : BitVec 64).toNat = 0 := rfl
  omega

/-- **The low bits of a result depend only on the low bits of the operands.** -/
theorem AluOp.setWidth_eval {op : AluOp} (hdiv : op.divides = false) {n k : Nat} (h : k ≤ n)
    (d x : BitVec n) :
    (op.eval d x).setWidth k = op.eval (d.setWidth k) (x.setWidth k) := by
  cases op with
  | add => exact BitVec.setWidth_add d x h
  | sub =>
      show (d - x).setWidth k = d.setWidth k - x.setWidth k
      rw [BitVec.sub_eq_add_neg, BitVec.sub_eq_add_neg, BitVec.setWidth_add _ _ h,
        BitVec.setWidth_neg_of_le h]
  | mul => exact BitVec.setWidth_mul d x h
  | div => cases hdiv
  | or => exact BitVec.setWidth_or
  | and => exact BitVec.setWidth_and
  | neg => exact BitVec.setWidth_neg_of_le h
  | mod => cases hdiv
  | xor => exact BitVec.setWidth_xor
  | mov => rfl

namespace Sys

variable {s : Sys} {inp : Nat → Inputs} {reg : Bool}

/-- A word of the arithmetic classes does not touch the data memory, and so completes. -/
theorem Begins.completes_alu (h : s.Begins) (hr : ∀ t, (inp t).resetNInt = true)
    (halu : isAlu s.cpu.instruction) : ∃ u, s.Completes inp u := by
  refine h.completes hr ?_
  intro ha
  rcases halu with hcls | hcls <;> rcases ha with hc | hc | hc <;> rw [hcls] at hc <;>
    exact absurd hc (by decide)

/-! ## 64-bit operations -/

/-- **64-bit operations on registers.** Wherever one begins it sets its destination to the
operation on the old values, and does nothing else, unless it is a `NEG64` whose two registers
hold different values. -/
theorem alu64_registers (h : s.Begins) (hr : ∀ t, (inp t).resetNInt = true)
    (hreg : badRegisters s.cpu.instruction = false) (op : AluOp) (hdiv : op.divides = false)
    (hop : opcodeOf s.cpu.instruction = op.opcode opcAlu64 true) :
    s.Sets inp (dstOf s.cpu.instruction)
        (op.eval (s.cpu.regs.read (dstOf s.cpu.instruction))
          (s.cpu.regs.read (srcOf s.cpu.instruction)))
      ↔ (op = .neg → s.cpu.regs.read (srcOf s.cpu.instruction)
          = s.cpu.regs.read (dstOf s.cpu.instruction)) := by
  have halu : isAlu s.cpu.instruction := op.isAlu_of_opcode (Or.inr rfl) hop
  obtain ⟨u, hu⟩ := h.completes_alu hr halu
  rw [h.sets_iff hr hreg hu (Machine.dispatch_alu64 hdiv hop)]
  show op.eval (s.cpu.regs.read _) (s.cpu.regs.read _)
    = (if op = .neg then -s.cpu.regs.read _ else op.eval (s.cpu.regs.read _) (s.cpu.regs.read _))
    ↔ _
  by_cases hneg : op = .neg
  · subst hneg
    rw [if_pos rfl]
    show -s.cpu.regs.read _ = -s.cpu.regs.read _ ↔ _
    rw [BitVec.neg_inj]
    exact ⟨fun heq _ => heq.symm, fun heq => (heq rfl).symm⟩
  · rw [if_neg hneg]
    exact ⟨fun _ hc => absurd hc hneg, fun _ => rfl⟩

/-- `NEG64 r1` with 5 in `r1` clears it. -/
theorem neg64_reads_src :
    (trying 0x8701000000000000#64 5).Begins
    ∧ badRegisters (trying 0x8701000000000000#64 5).cpu.instruction = false
    ∧ opcodeOf (trying 0x8701000000000000#64 5).cpu.instruction = ebpfOpNeg64
    ∧ ¬ (trying 0x8701000000000000#64 5).Sets (fun _ => Inputs.still true)
        (dstOf (trying 0x8701000000000000#64 5).cpu.instruction)
        (-(trying 0x8701000000000000#64 5).cpu.regs.read
          (dstOf (trying 0x8701000000000000#64 5).cpu.instruction)) := by
  have hb : (trying 0x8701000000000000#64 5).Begins :=
    trying_begins (by decide)
  have hreg : badRegisters (trying 0x8701000000000000#64 5).cpu.instruction = false := by decide
  have hop : opcodeOf (trying 0x8701000000000000#64 5).cpu.instruction
      = AluOp.neg.opcode opcAlu64 true := by decide
  refine ⟨hb, hreg, by decide, ?_⟩
  obtain ⟨u, hu⟩ := hb.completes_alu (fun _ => Inputs.still_resetNInt true)
    (AluOp.neg.isAlu_of_opcode (Or.inr rfl) hop)
  rw [hb.sets_iff (fun _ => Inputs.still_resetNInt true) hreg hu (Machine.dispatch_alu64 rfl hop)]
  decide

/-- `ADD64 r1, r1` doubles it. -/
theorem alu64_registers_add :
    (trying 0x0f11000000000000#64 5).Sets (fun _ => Inputs.still true) 1 10 :=
  (alu64_registers (trying_begins (by decide))
    (fun _ => Inputs.still_resetNInt true) (by decide) .add rfl (by decide)).mpr
    (fun hc => by cases hc)

/-! ## 32-bit operations -/

/-- The second operand of a 32-bit operation: the low half of `regs[src]`, or the immediate. -/
def operand32 (s : Sys) (reg : Bool) : BitVec 32 :=
  if reg then (s.cpu.regs.read (srcOf s.cpu.instruction)).setWidth 32
  else immediateOf s.cpu.instruction

theorem setWidth_operand (s : Sys) (reg : Bool) :
    (s.machine.operand s.cpu.instruction reg).setWidth 32 = s.operand32 reg := by
  cases reg with
  | true => rfl
  | false =>
      show ((immediateOf s.cpu.instruction).setWidth 64).setWidth 32 = _
      rw [BitVec.setWidth_setWidth_of_le _ (by omega), BitVec.setWidth_eq]
      rfl

/-- **32-bit operations.** Wherever one begins it sets its destination to the zero-extended 32-bit
result on the low halves of its operands, and does nothing else, unless it is a `MOV` from a
register whose upper half is not zero. -/
theorem alu32_results (h : s.Begins) (hr : ∀ t, (inp t).resetNInt = true)
    (hreg : badRegisters s.cpu.instruction = false) (op : AluOp) (hdiv : op.divides = false)
    (hop : opcodeOf s.cpu.instruction = op.opcode opcAlu reg) :
    s.Sets inp (dstOf s.cpu.instruction)
        ((op.eval ((s.cpu.regs.read (dstOf s.cpu.instruction)).setWidth 32)
          (s.operand32 reg)).setWidth 64)
      ↔ (op = .mov → reg = true →
          s.cpu.regs.read (srcOf s.cpu.instruction) >>> 32 = 0) := by
  have halu : isAlu s.cpu.instruction := op.isAlu_of_opcode (Or.inl rfl) hop
  obtain ⟨u, hu⟩ := h.completes_alu hr halu
  rw [h.sets_iff hr hreg hu (Machine.dispatch_alu32 hdiv hop), ← setWidth_operand,
    ← AluOp.setWidth_eval hdiv (by omega), ← low32_eq]
  by_cases hmov : op = .mov
  · subst hmov
    rw [if_pos rfl]
    show low32 (s.machine.operand _ reg) = s.machine.operand _ reg ↔ _
    cases reg with
    | true =>
        rw [low32_eq_self]
        exact ⟨fun hz _ _ => hz, fun hz => hz rfl rfl⟩
    | false =>
        refine ⟨fun _ _ hc => absurd hc (by simp), fun _ => ?_⟩
        -- an immediate has no upper half
        rw [low32_eq]
        exact congrArg (BitVec.setWidth 64) (setWidth_operand s false)
  · rw [if_neg hmov]
    exact ⟨fun _ hc => absurd hc hmov, fun _ => rfl⟩

/-- `MOV r0, r1` with a bit in the upper half of `r1` keeps it. -/
theorem mov32_copies_upper :
    (trying 0xbc10000000000000#64 0x100000000).Begins
    ∧ badRegisters (trying 0xbc10000000000000#64 0x100000000).cpu.instruction = false
    ∧ opcodeOf (trying 0xbc10000000000000#64 0x100000000).cpu.instruction = ebpfOpMovReg
    ∧ ¬ (trying 0xbc10000000000000#64 0x100000000).Sets (fun _ => Inputs.still true)
        (dstOf (trying 0xbc10000000000000#64 0x100000000).cpu.instruction)
        (((trying 0xbc10000000000000#64 0x100000000).operand32 true).setWidth 64) := by
  have hb : (trying 0xbc10000000000000#64 0x100000000).Begins :=
    trying_begins (by decide)
  have hreg : badRegisters (trying 0xbc10000000000000#64 0x100000000).cpu.instruction = false := by
    decide
  have hop : opcodeOf (trying 0xbc10000000000000#64 0x100000000).cpu.instruction
      = AluOp.mov.opcode opcAlu true := by decide
  refine ⟨hb, hreg, by decide, ?_⟩
  obtain ⟨u, hu⟩ := hb.completes_alu (fun _ => Inputs.still_resetNInt true)
    (AluOp.mov.isAlu_of_opcode (Or.inl rfl) hop)
  rw [hb.sets_iff (fun _ => Inputs.still_resetNInt true) hreg hu (Machine.dispatch_alu32 rfl hop)]
  decide

/-- `ADD r1, r1` on a register whose upper half is not zero. -/
theorem alu32_results_add :
    (trying 0x0c11000000000000#64 0x180000003).Sets (fun _ => Inputs.still true) 1 6 :=
  (@alu32_results _ _ true (trying_begins (by decide))
    (fun _ => Inputs.still_resetNInt true) (by decide) .add rfl (by decide)).mpr
    (fun hc => by cases hc)

end Sys

end VeBpf
