import VeBpf.Tools.Cbpf
import VeBpf.Tools.Encoders

/-!
# From classic BPF to eBPF, `rust-cbpf/c2e`

`convert` turns every classic instruction into a few eBPF instructions and then sets
the jump offsets, which count classic instructions until then. The accumulator is
`r0`, the index register `r6`; `r1` points to the packet, and the scratch words lie
below `r10`.

The result is a list of instructions; `to_bytes`, which packs it, is the crate
`rbpf`'s. The opcodes are named as in `cpu.v`.
-/

namespace VeBpf

namespace C2e

open Cbpf

/-! ## Registers -/

def r0 : BitVec 4 := 0#4
def r1 : BitVec 4 := 1#4
def r10 : BitVec 4 := 10#4
def regA : BitVec 4 := r0
def regX : BitVec 4 := 6#4
def regTmp : BitVec 4 := 7#4

/-! ## Blocks -/

def fail {α : Type} (e : Error) : Except Fault α := .error (.error e)

/-- `init REG_A, REG_X`. -/
def init : List Insn := [⟨ebpfOpMovImm, regA, 0, 0, 0⟩, ⟨ebpfOpMovImm, regX, 0, 0, 0⟩]

def exit : Insn := ⟨ebpfOpExit, 0, 0, 0, 0⟩

def subI16 (checks : Bool) (a b : BitVec 16) : Except Fault (BitVec 16) :=
  checked checks (a.ssubOverflow b) (a - b)

/-- `-(1 + insn.k as i16) * 4`. -/
def memOffset (checks : Bool) (k : BitVec 32) : Except Fault (BitVec 16) := do
  let n ← checked checks (BitVec.saddOverflow 1#16 (k.setWidth 16)) (1#16 + k.setWidth 16)
  let n ← checked checks (n == 0x8000#16) (-n)
  checked checks (n.smulOverflow 4#16) (n * 4#16)

def ret (insn : BpfInsn) : Except Fault (List Insn) :=
  if bpfRval insn.code = bpfA then .ok [exit]
  else if bpfRval insn.code = bpfK then .ok [⟨ebpfOpMovImm, r0, 0, 0, insn.k⟩, exit]
  else fail .invalidRval

/-- `REG_TMP <= R1 + REG_X`. -/
def packetAtX : List Insn :=
  [⟨ebpfOpMov64Reg, regTmp, r1, 0, 0⟩, ⟨ebpfOpAdd64Reg, regTmp, regX, 0, 0⟩]

def ld (checks : Bool) (insn : BpfInsn) : Except Fault (List Insn) :=
  let size := bpfSize insn.code
  let mode := bpfMode insn.code
  let off := insn.k.setWidth 16
  if size = bpfW ∧ mode = bpfAbs then
    .ok [⟨ebpfOpLdxw, regA, r1, off, 0⟩, ⟨ebpfOpBe, regA, 0, 0, 32⟩]
  else if size = bpfH ∧ mode = bpfAbs then
    .ok [⟨ebpfOpLdxh, regA, r1, off, 0⟩, ⟨ebpfOpBe, regA, 0, 0, 16⟩]
  else if size = bpfB ∧ mode = bpfAbs then .ok [⟨ebpfOpLdxb, regA, r1, off, 0⟩]
  else if size = bpfW ∧ mode = bpfInd then
    .ok (packetAtX ++ [⟨ebpfOpLdxw, regA, regTmp, off, 0⟩, ⟨ebpfOpBe, regA, 0, 0, 32⟩])
  else if size = bpfH ∧ mode = bpfInd then
    .ok (packetAtX ++ [⟨ebpfOpLdxh, regA, regTmp, off, 0⟩, ⟨ebpfOpBe, regA, 0, 0, 16⟩])
  else if size = bpfB ∧ mode = bpfInd then
    .ok (packetAtX ++ [⟨ebpfOpLdxb, regA, regTmp, off, 0⟩])
  else if size = bpfW ∧ mode = bpfLen then fail .invalidInstruction
  else if size = bpfW ∧ mode = bpfImm then .ok [⟨ebpfOpMovImm, regA, 0, 0, insn.k⟩]
  else if size = bpfW ∧ mode = bpfMem then do
    let off ← memOffset checks insn.k
    return [⟨ebpfOpLdxw, regA, r10, off, 0⟩]
  else fail .invalidLdInstruction

def ldx (checks : Bool) (insn : BpfInsn) : Except Fault (List Insn) :=
  let size := bpfSize insn.code
  let mode := bpfMode insn.code
  if size = bpfW ∧ mode = bpfLen then fail .invalidLdInstruction
  else if size = bpfB ∧ mode = bpfMsh then
    .ok [⟨ebpfOpLdxb, regX, r1, insn.k.setWidth 16, 0⟩, ⟨ebpfOpAndImm, regX, 0, 0, 0xf⟩,
      ⟨ebpfOpLshImm, regX, 0, 0, 2⟩]
  else if size = bpfW ∧ mode = bpfImm then .ok [⟨ebpfOpMovImm, regX, 0, 0, insn.k⟩]
  else if size = bpfW ∧ mode = bpfMem then do
    let off ← memOffset checks insn.k
    return [⟨ebpfOpLdxw, regX, r10, off, 0⟩]
  else fail .invalidLdInstruction

/-- `BPF_ST` and `BPF_STX`. -/
def store (checks : Bool) (reg : BitVec 4) (insn : BpfInsn) : Except Fault (List Insn) := do
  let off ← memOffset checks insn.k
  return [⟨ebpfOpStxw, r10, reg, off, 0⟩]

def jmpOpcK (op : BitVec 16) : Except Fault (BitVec 8) :=
  if op = bpfJgt then .ok ebpfOpJgtImm
  else if op = bpfJge then .ok ebpfOpJgeImm
  else if op = bpfJeq then .ok ebpfOpJeqImm
  else if op = bpfJset then .ok ebpfOpJsetImm
  else fail .invalidJmpCondition

def jmpOpcX (op : BitVec 16) : Except Fault (BitVec 8) :=
  if op = bpfJgt then .ok ebpfOpJgtReg
  else if op = bpfJge then .ok ebpfOpJgeReg
  else if op = bpfJeq then .ok ebpfOpJeqReg
  else if op = bpfJset then .ok ebpfOpJsetReg
  else fail .invalidJmpCondition

/-- The register form compares `REG_X` with register 0, and always has its second jump. -/
def jmp (insn : BpfInsn) : Except Fault (List Insn) :=
  if bpfOp insn.code = bpfJa then .ok [⟨ebpfOpJa, 0, 0, insn.k.setWidth 16, 0⟩]
  else if bpfSrc insn.code = bpfK then do
    let opc ← jmpOpcK (bpfOp insn.code)
    return ⟨opc, regA, 0, insn.jt.setWidth 16, insn.k⟩
      :: (if insn.jf ≠ 0 then [⟨ebpfOpJa, 0, 0, insn.jf.setWidth 16, 0⟩] else [])
  else if bpfSrc insn.code = bpfX then do
    let opc ← jmpOpcX (bpfOp insn.code)
    return [⟨opc, regX, 0, insn.jt.setWidth 16, 0⟩, ⟨ebpfOpJa, 0, 0, insn.jf.setWidth 16, 0⟩]
  else fail .invalidSrc

/-- `BPF_AND` becomes an addition. -/
def aluOpcK (op : BitVec 16) : Except Fault (BitVec 8) :=
  if op = bpfAdd then .ok ebpfOpAddImm
  else if op = bpfSub then .ok ebpfOpSubImm
  else if op = bpfMul then .ok ebpfOpMulImm
  else if op = bpfDiv then .ok ebpfOpDivImm
  else if op = bpfMod then .ok ebpfOpModImm
  else if op = bpfAnd then .ok ebpfOpAddImm
  else if op = bpfOr then .ok ebpfOpOrImm
  else if op = bpfXor then .ok ebpfOpXorImm
  else if op = bpfLsh then .ok ebpfOpLshImm
  else if op = bpfRsh then .ok ebpfOpRshImm
  else fail .invalidAluOp

/-- The same for the register forms. -/
def aluOpcX (op : BitVec 16) : Except Fault (BitVec 8) :=
  if op = bpfAdd then .ok ebpfOpAddReg
  else if op = bpfSub then .ok ebpfOpSubReg
  else if op = bpfMul then .ok ebpfOpMulReg
  else if op = bpfDiv then .ok ebpfOpDivReg
  else if op = bpfMod then .ok ebpfOpModReg
  else if op = bpfAnd then .ok ebpfOpAddReg
  else if op = bpfOr then .ok ebpfOpOrReg
  else if op = bpfXor then .ok ebpfOpXorReg
  else if op = bpfLsh then .ok ebpfOpLshReg
  else if op = bpfRsh then .ok ebpfOpRshReg
  else fail .invalidAluOp

def alu (insn : BpfInsn) : Except Fault (List Insn) :=
  if bpfOp insn.code = bpfNeg then .ok [⟨ebpfOpNeg, regA, 0, 0, 0⟩]
  else if bpfSrc insn.code = bpfK then do
    let opc ← aluOpcK (bpfOp insn.code)
    return [⟨opc, regA, 0, 0, insn.k⟩]
  else if bpfSrc insn.code = bpfX then do
    let opc ← aluOpcX (bpfOp insn.code)
    return [⟨opc, regA, regX, 0, 0⟩]
  else fail .invalidSrc

def misc (insn : BpfInsn) : Except Fault (List Insn) :=
  if bpfMiscop insn.code = bpfTax then .ok [⟨ebpfOpMovReg, regX, regA, 0, 0⟩]
  else if bpfMiscop insn.code = bpfTxa then .ok [⟨ebpfOpMovReg, regA, regX, 0, 0⟩]
  else fail .invalidMiscOp

/-- The block of an instruction. -/
def block (checks : Bool) (insn : BpfInsn) : Except Fault (List Insn) :=
  let cls := bpfClass insn.code
  if cls = bpfRet then ret insn
  else if cls = bpfLd then ld checks insn
  else if cls = bpfLdx then ldx checks insn
  else if cls = bpfSt then store checks regA insn
  else if cls = bpfStx then store checks regX insn
  else if cls = bpfJmp then jmp insn
  else if cls = bpfAlu then alu insn
  else if cls = bpfMisc then misc insn
  else fail .invalidInstruction

/-! ## Jump offsets -/

/-- `insn_count`. -/
def insnCount (prog : List (List Insn)) : List Nat :=
  prog.scanl (fun count insns => insns.length + count) 0

/-- Instruction `j` of block `i`, with its offset in eBPF instructions. `EXIT` is of the jump class
too. -/
def adjust (checks : Bool) (count : List Nat) (i j : Nat) (insn : Insn) : Except Fault Insn :=
  if 0x07#8 &&& insn.opcode = opcJmp then do
    let off := (insn.offset.signExtend 64).toNat
    let t ← checked checks (decide (2 ^ 64 ≤ i + off)) ((i + off) % 2 ^ 64)
    let t ← checked checks (decide (2 ^ 64 ≤ t + 1)) ((t + 1) % 2 ^ 64)
    match count[t]?, count[i]? with
    | some target, some here => do
        let d ← subI16 checks (BitVec.ofNat 16 target) (BitVec.ofNat 16 here)
        let d ← subI16 checks d (BitVec.ofNat 16 j)
        let d ← subI16 checks d 1
        return { insn with offset := d }
    | _, _ => fail .invalidInstruction
  else .ok insn

/-- `emit final program`. -/
def emit (checks : Bool) (prog : List (List Insn)) : Except Fault (List (List Insn)) :=
  prog.zipIdx.mapM fun (insns, i) =>
    insns.zipIdx.mapM fun (insn, j) => adjust checks (insnCount prog) i j insn

/-- `convert`. -/
def convert (checks : Bool) (insns : List BpfInsn) : Except Fault (List Insn) := do
  let prog ← insns.mapM (block checks)
  let p ← emit checks (init :: prog)
  return p.flatten

end C2e

end VeBpf
