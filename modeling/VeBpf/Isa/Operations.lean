import VeBpf.Isa.Facts
import Mathlib.Algebra.Group.Int.Defs
import Mathlib.Algebra.Group.Nat.Defs

/-!
# The operations of the instruction set

What the arithmetic and the conditional jumps of eBPF compute, at every width and
without a word about how the core does it. An opcode is a class, a source bit and
an operation code, so one operation stands for up to four opcodes.
-/

namespace VeBpf

/-- The source bit of an opcode: register or immediate. -/
def sourceBit (reg : Bool) : BitVec 8 := if reg then ebpfSrcReg else ebpfSrcImm

/-! ## Arithmetic -/

/-- The arithmetic operations but for the shifts and the byte swaps. -/
inductive AluOp where
  | add
  | sub
  | mul
  | div
  | or
  | and
  | neg
  | mod
  | xor
  | mov
  deriving DecidableEq, Repr

namespace AluOp

/-- The operation on `d = regs[dst]` and the second operand. -/
def eval {n : Nat} (op : AluOp) (d x : BitVec n) : BitVec n :=
  match op with
  | add => d + x
  | sub => d - x
  | mul => d * x
  | div => d / x
  | or => d ||| x
  | and => d &&& x
  | neg => -d
  | mod => d % x
  | xor => d ^^^ x
  | mov => x

def code : AluOp → BitVec 8
  | add => ebpfOpAdd
  | sub => ebpfOpSub
  | mul => ebpfOpMul
  | div => ebpfOpDiv
  | or => ebpfOpOr
  | and => ebpfOpAnd
  | neg => 0x80#8
  | mod => ebpfOpMod
  | xor => ebpfOpXor
  | mov => ebpfOpMov

/-- The opcode of a class. `NEG` has no second operand and comes without a source bit. -/
def opcode (op : AluOp) (cls : BitVec 8) (reg : Bool) : BitVec 8 :=
  match op with
  | neg => cls ||| neg.code
  | op => cls ||| sourceBit reg ||| op.code

/-- An operation is of the class that its opcode is formed with. -/
theorem opclass_opcode (op : AluOp) {cls : BitVec 8} (hcls : cls = opcAlu ∨ cls = opcAlu64)
    (reg : Bool) : opclassOf (op.opcode cls reg) = cls := by
  rcases hcls with rfl | rfl <;> cases op <;> cases reg <;> rfl

theorem isAlu_of_opcode (op : AluOp) {cls : BitVec 8} {reg : Bool} {w : BitVec 64}
    (hcls : cls = opcAlu ∨ cls = opcAlu64) (hop : opcodeOf w = op.opcode cls reg) : isAlu w := by
  rw [isAlu, hop, op.opclass_opcode hcls]
  exact hcls

/-- The operation is a division. -/
def divides : AluOp → Bool
  | div | mod => true
  | _ => false

end AluOp

/-- The shifts. -/
inductive ShiftOp where
  | lsh
  | rsh
  | arsh
  deriving DecidableEq, Repr

namespace ShiftOp

/-- The shift of an `n`-bit word by any count: `v * 2^s mod 2^n`, `⌊v / 2^s⌋`, or the floor of the
signed value divided by `2^s`, modulo `2^n`. -/
def eval {n : Nat} (op : ShiftOp) (v : BitVec n) (s : Nat) : BitVec n :=
  match op with
  | lsh => BitVec.ofNat n (v.toNat * 2 ^ s)
  | rsh => BitVec.ofNat n (v.toNat / 2 ^ s)
  | arsh => BitVec.ofInt n (v.toInt / 2 ^ s)

def code : ShiftOp → BitVec 8
  | lsh => ebpfOpLsh
  | rsh => ebpfOpRsh
  | arsh => ebpfOpArsh

def opcode (op : ShiftOp) (cls : BitVec 8) (reg : Bool) : BitVec 8 :=
  cls ||| sourceBit reg ||| op.code

theorem opclass_opcode (op : ShiftOp) {cls : BitVec 8} (hcls : cls = opcAlu ∨ cls = opcAlu64)
    (reg : Bool) : opclassOf (op.opcode cls reg) = cls := by
  rcases hcls with rfl | rfl <;> cases op <;> cases reg <;> rfl

theorem isAlu_of_opcode (op : ShiftOp) {cls : BitVec 8} {reg : Bool} {w : BitVec 64}
    (hcls : cls = opcAlu ∨ cls = opcAlu64) (hop : opcodeOf w = op.opcode cls reg) : isAlu w := by
  rw [isAlu, hop, op.opclass_opcode hcls]
  exact hcls

/-- What the shift asks of the shifter. -/
def request (op : ShiftOp) (value shift : BitVec 64) : ShiftRequest :=
  ⟨value, shift, op == .arsh, op == .lsh, .decode⟩

end ShiftOp

/-! ## Conditional jumps -/

/-- The comparisons of the conditional jumps. -/
inductive JumpOp where
  | eq
  | gt
  | ge
  | set
  | ne
  | sgt
  | sge
  | lt
  | le
  | slt
  | sle
  deriving DecidableEq, Repr

namespace JumpOp

/-- The relation between `d = regs[dst]` and the second operand. -/
def holds {n : Nat} (op : JumpOp) (d x : BitVec n) : Bool :=
  match op with
  | eq => d == x
  | gt => x.ult d
  | ge => x.ule d
  | set => d &&& x != 0
  | ne => d != x
  | sgt => x.slt d
  | sge => x.sle d
  | lt => d.ult x
  | le => d.ule x
  | slt => d.slt x
  | sle => d.sle x

def code : JumpOp → BitVec 8
  | eq => ebpfOpJeq
  | gt => ebpfOpJgt
  | ge => ebpfOpJge
  | set => ebpfOpJset
  | ne => ebpfOpJne
  | sgt => ebpfOpJsgt
  | sge => ebpfOpJsge
  | lt => ebpfOpJlt
  | le => ebpfOpJle
  | slt => ebpfOpJslt
  | sle => ebpfOpJsle

def opcode (op : JumpOp) (reg : Bool) : BitVec 8 := opcJmp ||| sourceBit reg ||| op.code

/-- The comparison is between signed numbers. -/
def signed : JumpOp → Bool
  | sgt | sge | slt | sle => true
  | _ => false

/-- The comparison that holds exactly when an order comparison does not. -/
def complement : JumpOp → Option JumpOp
  | gt => some le
  | le => some gt
  | ge => some lt
  | lt => some ge
  | sgt => some sle
  | sle => some sgt
  | sge => some slt
  | slt => some sge
  | _ => none

end JumpOp

/-! ## What the machine makes of them -/

namespace Machine

variable {m : Machine} {w : BitVec 64} {reg : Bool}

/-- The second operand of a 64-bit operation as the core forms it: immediates are zero-extended. -/
def operand (m : Machine) (w : BitVec 64) (reg : Bool) : BitVec 64 :=
  if reg then m.regs.read (srcOf w) else (immediateOf w).setWidth 64

/-- 64-bit arithmetic. `NEG64` reads the wrong register. -/
theorem dispatch_alu64 {op : AluOp} (hdiv : op.divides = false)
    (hop : opcodeOf w = op.opcode opcAlu64 reg) :
    m.dispatch w = m.set (dstOf w) (if op = .neg then -m.regs.read (srcOf w)
      else op.eval (m.regs.read (dstOf w)) (m.operand w reg)) := by
  rw [dispatch_alu (op.isAlu_of_opcode (Or.inr rfl) hop), aluWork, hop]
  cases op <;> first | exact absurd hdiv (by decide) | (cases reg <;> rfl)

/-- What a 32-bit operation writes, over the whole registers and the zero-extended immediate.
`MOV` with a register is the one that is not cut to 32 bits. -/
theorem dispatch_alu32 {op : AluOp} (hdiv : op.divides = false)
    (hop : opcodeOf w = op.opcode opcAlu reg) :
    m.dispatch w = m.set (dstOf w) (if op = .mov then m.operand w reg
      else low32 (op.eval (m.regs.read (dstOf w)) (m.operand w reg))) := by
  rw [dispatch_alu (op.isAlu_of_opcode (Or.inl rfl) hop), aluWork, hop]
  cases op <;> first | exact absurd hdiv (by decide) | (cases reg <;> rfl)

/-- The request of a 32-bit division. -/
theorem dispatch_div32 {op : AluOp} (hdiv : op.divides = true)
    (hop : opcodeOf w = op.opcode opcAlu reg) :
    m.dispatch w = m.arith w (some ⟨low32 (m.regs.read (dstOf w)), low32 (m.operand w reg),
      op == .mod⟩) none low32 none := by
  rw [dispatch_alu (op.isAlu_of_opcode (Or.inl rfl) hop), aluWork, hop]
  cases op <;> first | exact absurd hdiv (by decide) | (cases reg <;> rfl)

/-- The request of a 64-bit division. -/
theorem dispatch_div64 {op : AluOp} (hdiv : op.divides = true)
    (hop : opcodeOf w = op.opcode opcAlu64 reg) :
    m.dispatch w = m.arith w (some ⟨m.regs.read (dstOf w), m.operand w reg, op == .mod⟩) none
      id none := by
  rw [dispatch_alu (op.isAlu_of_opcode (Or.inr rfl) hop), aluWork, hop]
  cases op <;> first | exact absurd hdiv (by decide) | (cases reg <;> rfl)

/-- A 32-bit shift. `ARSH` extends the sign first, all forms cut the result. -/
theorem dispatch_shift32 {op : ShiftOp} (hop : opcodeOf w = op.opcode opcAlu reg) :
    m.dispatch w = m.set (dstOf w) (low32 (op.request
      (if op = .arsh then ((m.regs.read (dstOf w)).setWidth 32).signExtend 64
        else low32 (m.regs.read (dstOf w)))
      (if reg then low32 (m.regs.read (srcOf w)) else (immediateOf w).setWidth 64)).result) := by
  rw [dispatch_alu (op.isAlu_of_opcode (Or.inl rfl) hop), aluWork, hop]
  cases op <;> cases reg <;> rfl

theorem dispatch_shift64 {op : ShiftOp} (hop : opcodeOf w = op.opcode opcAlu64 reg) :
    m.dispatch w = m.set (dstOf w)
      (op.request (m.regs.read (dstOf w)) (m.operand w reg)).result := by
  rw [dispatch_alu (op.isAlu_of_opcode (Or.inr rfl) hop), aluWork, hop]
  cases op <;> cases reg <;> rfl

/-- **What the core compares**: the signed comparisons read the low halves only. -/
theorem jmpArm_conditional (op : JumpOp) (d s : BitVec 64) (imm : BitVec 32) :
    jmpArm (op.opcode reg) d s imm = some (if op.signed then
        op.holds (d.setWidth 32) (if reg then s.setWidth 32 else imm)
      else op.holds d (if reg then s else imm.setWidth 64)) := by
  cases op <;> cases reg <;> rfl

end Machine

end VeBpf
