import VeBpf.Proof.DataAccess
import VeBpf.Proof.Jumps

/-!
# Immediates

A 32-bit immediate as a 64-bit operand. eBPF extends its sign; the core fills the
upper half with zeros. The two agree on the immediates that are not negative, and
on negative ones only for some operations, where the register they meet hides the
difference.
-/

namespace VeBpf

open Halves ByteMem

/-- The instructions that use an immediate as a 64-bit operand. -/
inductive WideUse where
  | alu (op : AluOp)
  | store
  | jump (op : JumpOp)
  deriving DecidableEq, Repr

/-! ## Where the extension does not matter -/

/-- The operation gives the same with both extensions of a negative immediate `i`. -/
def AluOp.Indifferent (op : AluOp) (d : BitVec 64) (i : BitVec 32) : Prop :=
  match op with
  | mul => d.setWidth 32 = 0#32
  | div => d.toNat < i.toNat
  | or => d.extractLsb' 32 32 = BitVec.allOnes 32
  | and => d.extractLsb' 32 32 = 0#32
  | neg => True
  | mod => d.toNat < i.toNat
      ∨ (i.toNat + 0xffffffff00000000 ≤ d.toNat ∧ i.toNat ∣ 0xffffffff00000000)
  | add | sub | xor | mov => False

theorem AluOp.eval_extensions (op : AluOp) (d : BitVec 64) {i : BitVec 32} (h : i.msb = true) :
    op.eval d (i.signExtend 64) = op.eval d (i.setWidth 64) ↔ op.Indifferent d i := by
  have hne := extensions_ne h
  cases op with
  | add => exact iff_of_false (fun heq => hne ((BitVec.add_right_inj d).mp heq)) id
  | sub =>
      refine iff_of_false (fun heq => hne ?_) id
      have heq' : d - i.signExtend 64 = d - i.setWidth 64 := heq
      rw [BitVec.sub_eq_add_neg, BitVec.sub_eq_add_neg, BitVec.add_right_inj,
        BitVec.neg_inj] at heq'
      exact heq'
  | mul => exact mul_extensions d h
  | div => exact div_extensions d h
  | or => exact or_extensions d h
  | and => exact and_extensions d h
  | neg => exact iff_of_true rfl trivial
  | mod => exact mod_extensions d h
  | xor => exact iff_of_false (fun heq => hne ((BitVec.xor_right_inj d).mp heq)) id
  | mov => exact iff_of_false hne id

/-- The comparison comes out the same with both extensions of a negative immediate `i`. -/
def JumpOp.Indifferent (op : JumpOp) (d : BitVec 64) (i : BitVec 32) : Prop :=
  match op with
  | set => d.extractLsb' 32 32 = 0#32 ∨ d.setWidth 32 &&& i ≠ 0#32
  | _ => d ≠ i.signExtend 64 ∧ d ≠ i.setWidth 64

/-- The comparisons for equality and for common bits. -/
def JumpOp.plain : JumpOp → Bool
  | eq | ne | set => true
  | _ => false

theorem JumpOp.not_signed_of_plain {op : JumpOp} (h : op.plain = true) : op.signed = false := by
  cases op with
  | eq | ne | set => rfl
  | _ => cases h

theorem JumpOp.holds_extensions {op : JumpOp} (hop : op.plain = true) (d : BitVec 64)
    {i : BitVec 32} (h : i.msb = true) :
    op.holds d (i.signExtend 64) = op.holds d (i.setWidth 64) ↔ op.Indifferent d i := by
  have hne := extensions_ne h
  have heqs : ((d = i.signExtend 64 ↔ d = i.setWidth 64)
      ↔ d ≠ i.signExtend 64 ∧ d ≠ i.setWidth 64) := by
    constructor
    · intro hiff
      exact ⟨fun hs => hne (hs.symm.trans (hiff.mp hs)),
        fun hz => hne ((hiff.mpr hz).symm.trans hz)⟩
    · rintro ⟨hs, hz⟩
      exact iff_of_false hs hz
  cases op with
  | eq => exact decide_eq_decide.trans heqs
  | ne => exact Bool.not_inj_iff.trans (decide_eq_decide.trans heqs)
  | set =>
      have hbool : ∀ x y : BitVec 64, ((x != 0) = (y != 0)) ↔ (x = 0#64 ↔ y = 0#64) := by
        intro x y
        exact Bool.not_inj_iff.trans decide_eq_decide
      show ((d &&& i.signExtend 64 != 0) = (d &&& i.setWidth 64 != 0))
        ↔ d.extractLsb' 32 32 = 0#32 ∨ d.setWidth 32 &&& i ≠ 0#32
      rw [hbool, and_signExtend_eq_zero d h, and_zeroExtend_eq_zero]
      constructor
      · intro hiff
        by_cases hlow : d.setWidth 32 &&& i = 0#32
        · exact Or.inl (hiff.mpr hlow).1
        · exact Or.inr hlow
      · rintro (hupper | hlow)
        · exact and_iff_right hupper
        · exact iff_of_false (fun hand => hlow hand.2) hlow
  | _ => cases hop

namespace WideUse

def opcode : WideUse → BitVec 8
  | alu op => op.opcode opcAlu64 false
  | store => ebpfOpStdw
  | jump op => op.opcode false

/-- The instruction is one that extends its immediate: arithmetic with a second operand, `STDW`,
and the comparisons for equality and for common bits. -/
def extended : WideUse → Bool
  | alu op => op != .neg
  | store => true
  | jump op => op.plain

/-- What the instruction does is the same with both extensions of a negative immediate. For a
comparison it is also enough that both ways of the jump lead to the same word. -/
def Indifferent (use : WideUse) (d : BitVec 64) (w : BitVec 64) : Prop :=
  match use with
  | alu op => op.Indifferent d (immediateOf w)
  | store => False
  | jump op => op.Indifferent d (immediateOf w) ∨ (offsetOf w).toNat % 1024 = 0

end WideUse

namespace Sys

variable {s : Sys} {inp : Nat → Inputs} {u : Nat}

/-- **All that the instruction does is store `v`**: the eight bytes at `regs[dst] + offset` are
those of `v`, no other data byte and no register changes, and no error is raised. -/
def Stores (inp : Nat → Inputs) (s : Sys) (v : BitVec 64) : Prop :=
  ∃ u, s.Completes inp u ∧ (run inp s u).cpu.regs = s.cpu.regs
    ∧ (run inp s u).dataMem.mem = storeLE s.dataMem.mem
        ((s.machine.execution s.cpu.instruction).dataAddress (dstOf s.cpu.instruction)) v 8
    ∧ ∀ x, x ≤ u → (run inp s x).cpu.error = false

/-- The instruction does what it is for, with `x` as the 64-bit operand. -/
def Uses (inp : Nat → Inputs) (s : Sys) (use : WideUse) (x : BitVec 64) : Prop :=
  match use with
  | .alu op => s.Sets inp (dstOf s.cpu.instruction)
      (op.eval (s.cpu.regs.read (dstOf s.cpu.instruction)) x)
  | .store => s.Stores inp x
  | .jump op => s.Jumps inp (op.holds (s.cpu.regs.read (dstOf s.cpu.instruction)) x)

/-- A 64-bit operation with an immediate zero-extends it, divisions by anything but zero
included. -/
theorem dispatch_immediate (s : Sys) {op : AluOp} (hneg : op ≠ .neg)
    (hop : opcodeOf s.cpu.instruction = op.opcode opcAlu64 false)
    (hzero : op.divides = true → immediateOf s.cpu.instruction ≠ 0) :
    s.machine.dispatch s.cpu.instruction = s.machine.set (dstOf s.cpu.instruction)
      (op.eval (s.cpu.regs.read (dstOf s.cpu.instruction))
        ((immediateOf s.cpu.instruction).setWidth 64)) := by
  cases hdiv : op.divides with
  | false =>
      rw [Machine.dispatch_alu64 hdiv hop, if_neg hneg]
      rfl
  | true =>
      have hne : s.machine.operand s.cpu.instruction false ≠ 0 := by
        intro hz
        exact hzero hdiv ((setWidth_inj (by omega)).mp hz)
      rw [Machine.dispatch_div64 hdiv hop, Machine.arith]
      dsimp only
      rw [if_neg hne]
      cases op with
      | div => rfl
      | mod => rfl
      | _ => cases hdiv

/-- `STDW` stores the zero-extended immediate. -/
theorem Begins.stores_iff (h : s.Begins) (hr : ∀ t, (inp t).resetNInt = true)
    (hreg : badRegisters s.cpu.instruction = false) (hu : s.Completes inp u)
    (hop : opcodeOf s.cpu.instruction = ebpfOpStdw) (v : BitVec 64) :
    s.Stores inp v ↔ v = (immediateOf s.cpu.instruction).setWidth 64 := by
  have hshow := h.shows_dispatch hr hreg hu
  have hdispatch : s.machine.dispatch s.cpu.instruction
      = { s.machine with
          mem := storeLE s.dataMem.mem
            ((s.machine.execution s.cpu.instruction).dataAddress (dstOf s.cpu.instruction))
            ((immediateOf s.cpu.instruction).setWidth 64 : BitVec 64) 8 }.next := by
    have hadr : s.machine.storeAddress s.cpu.instruction
        = (s.machine.execution s.cpu.instruction).dataAddress (dstOf s.cpu.instruction) :=
      Machine.dataAddress_eq _ _
    rw [Machine.dispatch_st (by rw [hop]; decide), hop, ← hadr]
    rfl
  rw [hdispatch] at hshow
  constructor
  · rintro ⟨t, ht, -, hmem, -⟩
    obtain rfl := hu.unique ht
    exact (storeLE_inj (by omega) (by omega)).mp (hmem.symm.trans hshow.mem)
  · rintro rfl
    exact ⟨u, hu, hshow.regs, hshow.mem, h.errorless hr hu hshow.error⟩

/-- Every use of an immediate is told by what the zero extension gives. -/
theorem Begins.uses_iff (h : s.Begins) (hr : ∀ t, (inp t).resetNInt = true)
    (hreg : badRegisters s.cpu.instruction = false) {use : WideUse} (hext : use.extended = true)
    (hop : opcodeOf s.cpu.instruction = use.opcode)
    (hzero : use = .alu .div ∨ use = .alu .mod → immediateOf s.cpu.instruction ≠ 0)
    (hu : s.Completes inp u) :
    s.Uses inp use ((immediateOf s.cpu.instruction).signExtend 64)
      ↔ (immediateOf s.cpu.instruction).msb = false
        ∨ use.Indifferent (s.cpu.regs.read (dstOf s.cpu.instruction)) s.cpu.instruction := by
  have hpos : (immediateOf s.cpu.instruction).msb = false →
      (immediateOf s.cpu.instruction).signExtend 64
        = (immediateOf s.cpu.instruction).setWidth 64 :=
    BitVec.signExtend_eq_setWidth_of_msb_false
  cases use with
  | alu op =>
      have hdiv : op.divides = true → immediateOf s.cpu.instruction ≠ 0 := by
        intro hd
        apply hzero
        cases op with
        | div => exact Or.inl rfl
        | mod => exact Or.inr rfl
        | _ => cases hd
      show s.Sets inp _ _ ↔ _ ∨ op.Indifferent _ _
      rw [h.sets_iff hr hreg hu (s.dispatch_immediate (bne_iff_ne.mp hext) hop hdiv)]
      cases hmsb : (immediateOf s.cpu.instruction).msb with
      | false => exact iff_of_true (by rw [hpos hmsb]) (Or.inl rfl)
      | true => rw [AluOp.eval_extensions op _ hmsb, or_iff_right (by simp)]
  | store =>
      show s.Stores inp _ ↔ _ ∨ False
      rw [h.stores_iff hr hreg hu hop, or_false]
      cases hmsb : (immediateOf s.cpu.instruction).msb with
      | false => exact iff_of_true (hpos hmsb) rfl
      | true => exact iff_of_false (extensions_ne hmsb) (by simp)
  | jump op =>
      show s.Jumps inp _ ↔ _ ∨ op.Indifferent _ _ ∨ _
      have hplain : op.plain = true := hext
      -- the core compares whole words, with the zero extension
      have hdecides : s.decides op false
          = op.holds (s.cpu.regs.read (dstOf s.cpu.instruction))
            ((immediateOf s.cpu.instruction).setWidth 64) := by
        rw [decides, if_neg (by rw [JumpOp.not_signed_of_plain hplain]; simp)]
        rfl
      rw [(h.jumps_conditional hr hreg hop).iff, hdecides]
      cases hmsb : (immediateOf s.cpu.instruction).msb with
      | false => exact iff_of_true (Or.inr (by rw [hpos hmsb])) (Or.inl rfl)
      | true =>
          rw [JumpOp.holds_extensions hplain _ hmsb]
          simp only [Bool.true_eq_false, false_or]
          exact or_comm

/-- **Immediates as 64-bit operands.** An instruction that extends its immediate completes, a
store if the host lets go of the memory again and again, and then it has used the sign extension
exactly if the immediate is not negative or the extension does not matter to it. -/
theorem immediates_extended (h : s.Begins) (hr : ∀ t, (inp t).resetNInt = true)
    (hreg : badRegisters s.cpu.instruction = false) (use : WideUse) (hext : use.extended = true)
    (hop : opcodeOf s.cpu.instruction = use.opcode)
    (hzero : use = .alu .div ∨ use = .alu .mod → immediateOf s.cpu.instruction ≠ 0) :
    ((use = .store → Inputs.Yielding inp) → ∃ u, s.Completes inp u)
    ∧ ∀ u, s.Completes inp u →
      (s.Uses inp use ((immediateOf s.cpu.instruction).signExtend 64)
        ↔ (immediateOf s.cpu.instruction).msb = false
          ∨ use.Indifferent (s.cpu.regs.read (dstOf s.cpu.instruction)) s.cpu.instruction) := by
  refine ⟨fun hy => h.completes hr fun ha => hy ?_,
    fun u hu => h.uses_iff hr hreg hext hop hzero hu⟩
  -- of these words only `STDW` accesses the data memory
  cases use with
  | store => rfl
  | alu op =>
      rw [accesses, hop] at ha
      revert ha
      cases op <;> decide
  | jump op =>
      rw [accesses, hop] at ha
      revert ha
      cases op <;> decide

/-- `MOV64 r1, -1` clears the upper half. -/
theorem mov64_zero_extends :
    (trying 0xb7010000ffffffff#64 0).Begins
    ∧ badRegisters (trying 0xb7010000ffffffff#64 0).cpu.instruction = false
    ∧ opcodeOf (trying 0xb7010000ffffffff#64 0).cpu.instruction = ebpfOpMov64Imm
    ∧ ¬ (trying 0xb7010000ffffffff#64 0).Sets (fun _ => Inputs.still true)
        (dstOf (trying 0xb7010000ffffffff#64 0).cpu.instruction)
        ((immediateOf (trying 0xb7010000ffffffff#64 0).cpu.instruction).signExtend 64) := by
  have hb : (trying 0xb7010000ffffffff#64 0).Begins :=
    trying_begins (by decide)
  have hreg : badRegisters (trying 0xb7010000ffffffff#64 0).cpu.instruction = false := by decide
  have hop : opcodeOf (trying 0xb7010000ffffffff#64 0).cpu.instruction
      = AluOp.mov.opcode opcAlu64 false := by decide
  refine ⟨hb, hreg, by decide, ?_⟩
  obtain ⟨u, hu⟩ := hb.completes_alu (fun _ => Inputs.still_resetNInt true)
    (Or.inr (by rw [hop]; decide))
  rw [hb.sets_iff (fun _ => Inputs.still_resetNInt true) hreg hu
    (dispatch_immediate _ (by decide) hop (by decide))]
  decide

/-- `AND64 r1, -1` on a word without an upper half is not affected. -/
theorem immediates_extended_and :
    ∃ u, (trying 0x57010000ffffffff#64 5).Completes (fun _ => Inputs.still true) u
      ∧ (trying 0x57010000ffffffff#64 5).Uses (fun _ => Inputs.still true) (.alu .and)
          (BitVec.allOnes 64) := by
  have hwide := @immediates_extended (trying 0x57010000ffffffff#64 5)
    (fun _ => Inputs.still true)
    (trying_begins (by decide))
    (fun _ => Inputs.still_resetNInt true) (by decide) (.alu .and) (by decide) (by decide)
    (fun hc => by cases hc <;> contradiction)
  have hupper : ((trying 0x57010000ffffffff#64 5).cpu.regs.read
      (dstOf (trying 0x57010000ffffffff#64 5).cpu.instruction)).extractLsb' 32 32 = 0#32 := by
    decide
  obtain ⟨u, hu⟩ := hwide.1 (fun hc => by cases hc)
  exact ⟨u, hu, (hwide.2 u hu).mpr (Or.inr hupper)⟩

end Sys

end VeBpf
