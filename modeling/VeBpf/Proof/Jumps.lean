import VeBpf.Lib.Halves
import VeBpf.Proof.Arithmetic
import VeBpf.Proof.Sequencing

/-!
# Conditional jumps

Which way a conditional jump goes. The unsigned comparisons are over 64 bits, as
they should be; the signed ones are over the low halves, and agree with the order
of the whole words only where the upper halves do not speak against it.
-/

namespace VeBpf

open Halves

/-! ## Signed comparisons by halves -/

namespace JumpOp

/-- With different upper halves the lower ones do not matter. -/
theorem holds_of_upper_ne {op : JumpOp} (hs : op.signed = true) {d x : BitVec 64}
    (hne : d.extractLsb' 32 32 ≠ x.extractLsb' 32 32) :
    op.holds d x = op.holds (d.extractLsb' 32 32) (x.extractLsb' 32 32) := by
  have hd := toInt_halves d
  have hx := toInt_halves x
  have hdlt := (d.setWidth 32).isLt
  have hxlt := (x.setWidth 32).isLt
  rw [ne_eq, ← BitVec.toInt_inj] at hne
  have hlt : d.toInt < x.toInt
      ↔ (d.extractLsb' 32 32).toInt < (x.extractLsb' 32 32).toInt := by omega
  have hgt : x.toInt < d.toInt
      ↔ (x.extractLsb' 32 32).toInt < (d.extractLsb' 32 32).toInt := by omega
  cases op with
  | sgt => exact decide_eq_decide.mpr hgt
  | sge => exact decide_eq_decide.mpr (by omega)
  | slt => exact decide_eq_decide.mpr hlt
  | sle => exact decide_eq_decide.mpr (by omega)
  | _ => cases hs

/-- With equal upper halves the lower ones are compared without their sign. -/
theorem holds_of_upper_eq {op : JumpOp} (hs : op.signed = true) {d x : BitVec 64}
    (heq : d.extractLsb' 32 32 = x.extractLsb' 32 32) :
    op.holds d x = op.holds (d.setWidth 32) (x.setWidth 32)
      ↔ (d.setWidth 32).msb = (x.setWidth 32).msb := by
  have hd := toInt_halves d
  have hx := toInt_halves x
  have hdlt := (d.setWidth 32).isLt
  have hxlt := (x.setWidth 32).isLt
  have hdlow := toInt_low (d.setWidth 32)
  have hxlow := toInt_low (x.setWidth 32)
  have hdrange := And.intro (BitVec.le_two_mul_toInt (x := d.setWidth 32))
    (BitVec.two_mul_toInt_lt (x := d.setWidth 32))
  have hxrange := And.intro (BitVec.le_two_mul_toInt (x := x.setWidth 32))
    (BitVec.two_mul_toInt_lt (x := x.setWidth 32))
  rw [heq] at hd
  have horder : ((d.toInt < x.toInt ↔ (d.setWidth 32).toInt < (x.setWidth 32).toInt)
        ↔ (d.setWidth 32).msb = (x.setWidth 32).msb)
      ∧ ((x.toInt < d.toInt ↔ (x.setWidth 32).toInt < (d.setWidth 32).toInt)
        ↔ (d.setWidth 32).msb = (x.setWidth 32).msb) := by
    cases hm : (d.setWidth 32).msb <;> cases hm' : (x.setWidth 32).msb <;>
      simp only [hm, hm', if_true, Bool.false_eq_true, if_false] at hdlow hxlow <;>
      simp only [reduceCtorEq, iff_true, iff_false] <;> omega
  obtain ⟨hlt, hgt⟩ := horder
  cases op with
  | sgt => exact decide_eq_decide.trans hgt
  | sge => exact decide_eq_decide.trans (by rw [← hlt]; omega)
  | slt => exact decide_eq_decide.trans hlt
  | sle => exact decide_eq_decide.trans (by rw [← hgt]; omega)
  | _ => cases hs

/-- The signed order of the low halves is that of the whole words: the upper halves are equal, and
bit 31 is set in both words or in none, or else the upper halves are in the same order as the
lower ones. -/
def LowerDecides (op : JumpOp) (d x : BitVec 64) : Prop :=
  if d.extractLsb' 32 32 = x.extractLsb' 32 32 then (d.setWidth 32).msb = (x.setWidth 32).msb
  else op.holds (d.extractLsb' 32 32) (x.extractLsb' 32 32)
    = op.holds (d.setWidth 32) (x.setWidth 32)

theorem lowerDecides_iff {op : JumpOp} (hs : op.signed = true) (d x : BitVec 64) :
    op.holds d x = op.holds (d.setWidth 32) (x.setWidth 32) ↔ op.LowerDecides d x := by
  unfold LowerDecides
  by_cases heq : d.extractLsb' 32 32 = x.extractLsb' 32 32
  · rw [if_pos heq]
    exact holds_of_upper_eq hs heq
  · rw [if_neg heq, holds_of_upper_ne hs heq]

/-- An order comparison and its complement. -/
theorem holds_complement {op op' : JumpOp} (h : op.complement = some op') {n : Nat}
    (d x : BitVec n) : op'.holds d x = !op.holds d x := by
  cases op <;> cases h <;>
    simp [holds, BitVec.ult, BitVec.ule, BitVec.slt, BitVec.sle, ← decide_not]

end JumpOp

namespace Sys

variable {s s' : Sys} {inp inp' : Nat → Inputs} {reg : Bool}

/-- Where the next fetch goes after a jump. -/
def jumpTarget (s : Sys) (taken : Bool) : BitVec 10 :=
  if taken then BitVec.ofInt 10 (s.cpu.ip.toNat + 1 + (offsetOf s.cpu.instruction).toInt)
  else s.cpu.ip + 1

/-- **All that the instruction does is jump, or not**: `ip_next` holds the target, and no register
and no data byte changes. -/
def Jumps (inp : Nat → Inputs) (s : Sys) (taken : Bool) : Prop :=
  ∃ u, s.Completes inp u ∧ (run inp s u).cpu.ipNext = s.jumpTarget taken
    ∧ (run inp s u).cpu.regs = s.cpu.regs ∧ (run inp s u).dataMem.mem = s.dataMem.mem
    ∧ ∀ v, v ≤ u → (run inp s v).cpu.error = false

/-- A jump is done in its first cycle. -/
theorem Begins.jumps (h : s.Begins) (hr : ∀ t, (inp t).resetNInt = true)
    (hreg : badRegisters s.cpu.instruction = false) {taken : Bool}
    (hcall : opcodeOf s.cpu.instruction ≠ ebpfOpCall)
    (hexit : opcodeOf s.cpu.instruction ≠ ebpfOpExit)
    (harm : jmpArm (opcodeOf s.cpu.instruction) (s.cpu.regs.read (dstOf s.cpu.instruction))
      (s.cpu.regs.read (srcOf s.cpu.instruction)) (immediateOf s.cpu.instruction) = some taken) :
    s.Jumps inp taken := by
  have ha := h.accepted hreg
  have hcls : opclassOf (opcodeOf s.cpu.instruction) = opcJmp := by
    by_contra hne
    rw [Machine.jmpArm_none hne] at harm
    cases harm
  have hrun : (s.step (inp 0)).cpu = s.cpu.opcJmpArm
      { { s.cpu with ticks := s.cpu.ticks + 1 } with keepOp := 0, cpuDataAck := false } := by
    rw [step_cpu (hr 0), run_decode ha.holds.halt ha.rejects h.state,
      decode_jmp (by rw [ha.opcode, hcls])]
  have hdst : s.cpu.dstReg = s.cpu.regs.read (dstOf s.cpu.instruction) := ha.dstReg
  have hsrc : s.cpu.srcReg = s.cpu.regs.read (srcOf s.cpu.instruction) := ha.srcReg
  rw [Cpu.opcJmpArm, ha.opcode, if_neg hcall, if_neg hexit, hdst, hsrc,
    show s.cpu.immediate = immediateOf s.cpu.instruction from rfl, harm] at hrun
  -- the edge of `STATE_DECODE` is the whole work, and `ip_next` all that it leaves
  have hip : s.cpu.ipNext = s.cpu.ip + 1 := ha.onWord.ipNext
  have hmem : (s.step (inp 0)).dataMem.mem = s.dataMem.mem := (h.rest.data.ram_step (hr 0)).holds
  have herr := h.rest.holds.error
  have hhalt := h.running
  cases taken with
  | true =>
      have htarget : ((s.cpu.ipNext.setWidth 16 + s.cpu.offset).setWidth 10 : BitVec 10)
          = s.jumpTarget true := by
        rw [hip]
        exact s.machine.target_eq s.cpu.instruction
      refine ⟨1, completes_one (by rw [hrun]; simp [Cpu.working]), ?_, by rw [run, run, hrun], hmem,
        ?_⟩
      · rw [run, run, hrun]
        exact htarget
      · intro v hv
        obtain rfl | rfl : v = 0 ∨ v = 1 := by omega
        · exact herr
        · rw [run, run, hrun]
          exact herr
  | false =>
      refine ⟨1, completes_one (by rw [hrun]; simp [Cpu.working]), ?_, by rw [run, run, hrun], hmem,
        ?_⟩
      · rw [run, run, hrun]
        exact hip
      · intro v hv
        obtain rfl | rfl : v = 0 ∨ v = 1 := by omega
        · exact herr
        · rw [run, run, hrun]
          exact herr

/-- The two ways of a jump lead to the same word exactly if the offset is a multiple of 1024. -/
theorem jumpTarget_eq_iff (s : Sys) :
    s.jumpTarget true = s.jumpTarget false ↔ (offsetOf s.cpu.instruction).toNat % 1024 = 0 := by
  have htarget : s.jumpTarget true = s.machine.target s.cpu.instruction :=
    (s.machine.target_eq s.cpu.instruction).symm
  have hoff := (offsetOf s.cpu.instruction).isLt
  have hip := (s.cpu.ip + 1).isLt
  rw [htarget, ← BitVec.toNat_inj]
  show (((s.cpu.ip + 1).setWidth 16 + offsetOf s.cpu.instruction).setWidth 10).toNat
    = (s.cpu.ip + 1).toNat ↔ _
  rw [BitVec.toNat_setWidth, BitVec.toNat_add, BitVec.toNat_setWidth]
  omega

/-- A jump is known by where it leads. -/
theorem Jumps.iff {taken : Bool} (h : s.Jumps inp taken) (b : Bool) :
    s.Jumps inp b ↔ (offsetOf s.cpu.instruction).toNat % 1024 = 0 ∨ b = taken := by
  obtain ⟨u, hu, hip, hrest⟩ := h
  have hsame : s.Jumps inp b ↔ s.jumpTarget taken = s.jumpTarget b := by
    constructor
    · rintro ⟨v, hv, hip', -⟩
      obtain rfl := hu.unique hv
      rw [← hip, ← hip']
    · intro heq
      exact ⟨u, hu, hip.trans heq, hrest⟩
  rw [hsame, ← jumpTarget_eq_iff]
  cases b <;> cases taken <;> simp [eq_comm]

/-- The comparison that the core makes: signed ones are over the low halves, and an immediate is
zero-extended for the others. -/
def decides (s : Sys) (op : JumpOp) (reg : Bool) : Bool :=
  if op.signed then op.holds ((s.cpu.regs.read (dstOf s.cpu.instruction)).setWidth 32)
    (s.operand32 reg)
  else op.holds (s.cpu.regs.read (dstOf s.cpu.instruction))
    (s.machine.operand s.cpu.instruction reg)

/-- A conditional jump goes by that comparison. -/
theorem Begins.jumps_conditional (h : s.Begins) (hr : ∀ t, (inp t).resetNInt = true)
    (hreg : badRegisters s.cpu.instruction = false) {op : JumpOp}
    (hop : opcodeOf s.cpu.instruction = op.opcode reg) : s.Jumps inp (s.decides op reg) := by
  refine h.jumps hr hreg ?_ ?_ ?_
  · rw [hop]
    cases op <;> cases reg <;> decide
  · rw [hop]
    cases op <;> cases reg <;> decide
  · rw [hop]
    exact Machine.jmpArm_conditional op _ _ _

/-- The second operand of a comparison: `regs[src]`, or the sign-extended immediate. -/
def compared (s : Sys) (reg : Bool) : BitVec 64 :=
  if reg then s.cpu.regs.read (srcOf s.cpu.instruction)
  else (immediateOf s.cpu.instruction).signExtend 64

theorem setWidth_compared (s : Sys) (reg : Bool) :
    (s.compared reg).setWidth 32 = s.operand32 reg := by
  cases reg with
  | true => rfl
  | false => exact lower_signExtend _

/-- A signed comparison is the 64-bit one where the low halves decide it. -/
theorem holds_compared_iff (s : Sys) {op : JumpOp} (hs : op.signed = true) :
    op.holds (s.cpu.regs.read (dstOf s.cpu.instruction)) (s.compared reg) = s.decides op reg
      ↔ op.LowerDecides (s.cpu.regs.read (dstOf s.cpu.instruction)) (s.compared reg) := by
  rw [← JumpOp.lowerDecides_iff hs, decides, if_pos hs, setWidth_compared]

/-- Complementary comparisons on the same operands go opposite ways. -/
theorem decides_complement {op op' : JumpOp} (h : op.complement = some op')
    (hd : s'.cpu.regs.read (dstOf s'.cpu.instruction)
      = s.cpu.regs.read (dstOf s.cpu.instruction))
    (hx : s'.compared reg = s.compared reg) : s'.decides op' reg = !s.decides op reg := by
  have hlow : s'.operand32 reg = s.operand32 reg := by
    rw [← setWidth_compared, hx, setWidth_compared]
  have hwide : s'.machine.operand s'.cpu.instruction reg
      = s.machine.operand s.cpu.instruction reg := by
    cases reg with
    | true => exact hx
    | false => exact congrArg (BitVec.setWidth 64) hlow
  have hsigned : op'.signed = op.signed := by
    cases op <;> cases h <;> rfl
  unfold decides
  rw [hsigned, hd, hlow, hwide, JumpOp.holds_complement h, JumpOp.holds_complement h]
  cases op.signed <;> rfl

/-- **Conditional jumps.** A comparison of two registers, or a signed one with an immediate, goes
the way of the 64-bit relation exactly if it is not signed, or the low halves decide it, or the
offset is a multiple of 1024. Every conditional jump goes one way or the other and changes nothing
else, and one with the complementary comparison on the same operands goes the other way. -/
theorem conditional_jumps (h : s.Begins) (hr : ∀ t, (inp t).resetNInt = true)
    (hreg : badRegisters s.cpu.instruction = false) (op : JumpOp)
    (hop : opcodeOf s.cpu.instruction = op.opcode reg) :
    (reg = true ∨ op.signed = true →
      (s.Jumps inp (op.holds (s.cpu.regs.read (dstOf s.cpu.instruction)) (s.compared reg))
        ↔ op.signed = false
          ∨ op.LowerDecides (s.cpu.regs.read (dstOf s.cpu.instruction)) (s.compared reg)
          ∨ (offsetOf s.cpu.instruction).toNat % 1024 = 0))
    ∧ ∃ taken, s.Jumps inp taken ∧ ∀ (s' : Sys) (inp' : Nat → Inputs) (op' : JumpOp),
        s'.Begins → (∀ t, (inp' t).resetNInt = true) → badRegisters s'.cpu.instruction = false →
        op.complement = some op' → opcodeOf s'.cpu.instruction = op'.opcode reg →
        s'.cpu.regs.read (dstOf s'.cpu.instruction) = s.cpu.regs.read (dstOf s.cpu.instruction) →
        s'.compared reg = s.compared reg → s'.Jumps inp' !taken := by
  have hjump := h.jumps_conditional hr hreg hop
  refine ⟨?_, s.decides op reg, hjump, ?_⟩
  · intro hform
    rw [hjump.iff]
    cases hs : op.signed with
    | true =>
        rw [holds_compared_iff s hs]
        simp only [Bool.true_eq_false, false_or]
        exact or_comm
    | false =>
        obtain rfl : reg = true := hform.resolve_right (by simp [hs])
        refine iff_of_true (Or.inr ?_) (Or.inl rfl)
        rw [decides, if_neg (by simp [hs])]
        rfl
  · intro s' inp' op' h' hr' hreg' hcompl hop' hd hx
    rw [← decides_complement hcompl hd hx]
    exact h'.jumps_conditional hr' hreg' hop'

/-- `JSGT r1, 0, +1` with bit 32 set in `r1` and nothing else. -/
theorem jsgt_ignores_upper :
    (trying 0x6501000100000000#64 0x100000000).Begins
    ∧ badRegisters (trying 0x6501000100000000#64 0x100000000).cpu.instruction = false
    ∧ opcodeOf (trying 0x6501000100000000#64 0x100000000).cpu.instruction = ebpfOpJsgtImm
    ∧ (0 : BitVec 64).slt ((trying 0x6501000100000000#64 0x100000000).cpu.regs.read
        (dstOf (trying 0x6501000100000000#64 0x100000000).cpu.instruction)) = true
    ∧ ¬ (trying 0x6501000100000000#64 0x100000000).Jumps (fun _ => Inputs.still true) true := by
  have hb : (trying 0x6501000100000000#64 0x100000000).Begins :=
    trying_begins (by decide)
  have hreg : badRegisters (trying 0x6501000100000000#64 0x100000000).cpu.instruction = false := by
    decide
  refine ⟨hb, hreg, by decide, by decide, ?_⟩
  have hop : opcodeOf (trying 0x6501000100000000#64 0x100000000).cpu.instruction
      = JumpOp.sgt.opcode false := by decide
  have hjump := hb.jumps_conditional (fun _ => Inputs.still_resetNInt true) hreg hop
  rw [hjump.iff]
  decide

/-- `JSLT r1, r0, +1` is taken with -1 in `r1`, where the low halves decide as all 64 bits do. -/
theorem conditional_jumps_jslt :
    (trying 0xcd01000100000000#64 0xffffffffffffffff).Jumps (fun _ => Inputs.still true) true :=
  ((@conditional_jumps _ _ true
    (trying_begins (by decide))
    (fun _ => Inputs.still_resetNInt true) (by decide) .slt (by decide)).1 (Or.inr rfl)).mpr
    (Or.inr (Or.inl ((JumpOp.lowerDecides_iff rfl _ _).mp (by decide))))

end Sys

end VeBpf
