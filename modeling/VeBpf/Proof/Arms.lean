import VeBpf.Isa.Operations
import VeBpf.Proof.SlowArithmetic
import VeBpf.Tools.Ubpf

/-!
# The arms of the interpreter, by operation

The `switch` of `ubpf_exec` has an arm for every opcode. Here they are ordered by
what they compute, as the tables of the core are: an operation, whether it is on
words of 32 or 64 bits, and whether the second operand is a register. Immediates
are sign-extended, but for the order comparisons of numbers without a sign.
-/

namespace VeBpf

namespace Ubpf

open Halves

variable {curPc : BitVec 16} {d s : BitVec 64} {imm : BitVec 32}

theorem low_eq (x : BitVec 64) : low x = (u32 x).setWidth 64 := low32_eq x

theorem low_zeroExtend (a : BitVec 32) : low (a.setWidth 64) = a.setWidth 64 := by
  rw [low_eq, u32, lower_zeroExtend]

/-- The second operand of arithmetic. -/
def operand (reg : Bool) (s : BitVec 64) (imm : BitVec 32) : BitVec 64 :=
  if reg then s else wide imm

theorem aluArm_alu32 {op : AluOp} (hdiv : op.divides = false) (reg : Bool) :
    aluArm curPc (op.opcode opcAlu reg) d s imm
      = some (.ok (low (op.eval d (operand reg s imm)))) := by
  cases op <;> first | exact absurd hdiv (by decide) | (cases reg <;> rfl)

theorem aluArm_alu64 {op : AluOp} (hdiv : op.divides = false) (reg : Bool) :
    aluArm curPc (op.opcode opcAlu64 reg) d s imm
      = some (.ok (op.eval d (operand reg s imm))) := by
  cases op <;> first | exact absurd hdiv (by decide) | (cases reg <;> rfl)

/-- A 32-bit division. The low halves are divided, and the divisor of the register form must not
be zero as a whole. -/
theorem aluArm_div32 {op : AluOp} (hdiv : op.divides = true) (reg : Bool) :
    aluArm curPc (op.opcode opcAlu reg) d s imm = some (if reg then
        nonZero curPc s (divided (u32 s) ((op.eval (u32 d) (u32 s)).setWidth 64))
      else divided imm ((op.eval (u32 d) imm).setWidth 64)) := by
  have hlow := fun x : BitVec 32 => low_zeroExtend x
  cases op with
  | div =>
      cases reg with
      | false => exact congrArg (fun v => some (divided imm v)) (hlow _)
      | true => exact congrArg (fun v => some (nonZero curPc s (divided (u32 s) v))) (hlow _)
  | mod =>
      cases reg with
      | false => exact congrArg (fun v => some (divided imm v)) (hlow _)
      | true => rfl
  | _ => cases hdiv

theorem aluArm_div64 {op : AluOp} (hdiv : op.divides = true) (reg : Bool) :
    aluArm curPc (op.opcode opcAlu64 reg) d s imm = some (if reg then
        nonZero curPc s (.ok (op.eval d s)) else divided (wide imm) (op.eval d (wide imm))) := by
  cases op <;> first | exact absurd hdiv (by decide) | (cases reg <;> rfl)

/-! Shifts, by the count that the arm reads. -/

/-- A 32-bit `ARSH` reads its count from the low half of the register, the others from all of it. -/
def count32 (op : ShiftOp) (reg : Bool) (s : BitVec 64) (imm : BitVec 32) : Nat :=
  if reg then (if op = .arsh then (u32 s).toNat else s.toNat) else imm.toNat

def count64 (reg : Bool) (s : BitVec 64) (imm : BitVec 32) : Nat :=
  if reg then s.toNat else imm.toNat

theorem shifted_of_lt {width n : Nat} {v : BitVec 64} (h : n < width) :
    shifted width n v = .ok v := if_pos h

theorem low_shiftLeft (d : BitVec 64) (n : Nat) :
    low (d <<< n) = (ShiftOp.lsh.eval (u32 d) n).setWidth 64 := by
  rw [low_eq, ShiftOp.eval_lsh]
  congr 1
  apply BitVec.eq_of_toNat_eq
  rw [u32, u32, BitVec.toNat_setWidth, BitVec.toNat_shiftLeft, BitVec.toNat_shiftLeft,
    BitVec.toNat_setWidth, Nat.shiftLeft_eq, Nat.shiftLeft_eq,
    Nat.mod_mod_of_dvd _ (by decide), Nat.mod_mul_mod]

/-- A 32-bit shift. Only `LSH` is a shift of the whole register. -/
theorem aluArm_shift32 (op : ShiftOp) (reg : Bool) :
    aluArm curPc (op.opcode opcAlu reg) d s imm
      = some (shifted (if op = .lsh then 64 else 32) (count32 op reg s imm)
        ((op.eval (u32 d) (count32 op reg s imm)).setWidth 64)) := by
  cases op with
  | lsh =>
      rw [← low_shiftLeft]
      cases reg <;> rfl
  | rsh =>
      rw [ShiftOp.eval_rsh, ← low_zeroExtend]
      cases reg <;> rfl
  | arsh =>
      have hlow : ∀ n, low (((u32 d).sshiftRight n).signExtend 64)
          = (ShiftOp.arsh.eval (u32 d) n).setWidth 64 := fun n => by
        rw [low_eq, u32, lower_signExtend, ShiftOp.eval_arsh]
      rw [← hlow]
      cases reg <;> rfl

theorem aluArm_shift64 (op : ShiftOp) (reg : Bool) :
    aluArm curPc (op.opcode opcAlu64 reg) d s imm
      = some (shifted 64 (count64 reg s imm) (op.eval d (count64 reg s imm))) := by
  cases op with
  | lsh =>
      rw [ShiftOp.eval_lsh]
      cases reg <;> rfl
  | rsh =>
      rw [ShiftOp.eval_rsh]
      cases reg <;> rfl
  | arsh =>
      rw [ShiftOp.eval_arsh]
      cases reg <;> rfl

/-- The count of a shift that is not too wide, as a number. -/
theorem count32_eq {op : ShiftOp} {reg : Bool} {n : Nat} (hn : n < 2 ^ 32)
    (h : count64 reg s imm = n) : count32 op reg s imm = n := by
  unfold count32
  cases reg with
  | false => exact h
  | true =>
      have hs : s.toNat = n := h
      rw [if_pos rfl, u32, BitVec.toNat_setWidth, hs, Nat.mod_eq_of_lt hn, ite_self]

/-! Comparisons and loads. -/

theorem jumpArm_conditional (op : JumpOp) (reg : Bool) :
    jumpArm (op.opcode reg) d s imm = some (op.holds d (if reg then s else
      if op = .gt ∨ op = .ge ∨ op = .lt ∨ op = .le then imm.setWidth 64 else wide imm)) := by
  cases op <;> cases reg <;> rfl

theorem ldxArm_loadWidth {op : BitVec 8} {n : Nat} (h : loadWidth op = some n) :
    ldxArm op = some n ∧ aluArm curPc op d s imm = none := by
  unfold loadWidth at h
  split_ifs at h with h₁ h₂ h₃ h₄ <;> obtain rfl := Option.some.inj h <;> subst op <;>
    exact ⟨rfl, rfl⟩

end Ubpf

end VeBpf
