/-!
# Parameters of `cpu.v`

The opcode table, written the way the source builds it: a class in the low three
bits, a source bit, and an operation code in the high nibble (or, for loads and
stores, a size and a mode).
-/

namespace VeBpf

/-- `MAX_REGS`: registers r0 to r10. -/
def maxRegs : Nat := 11

/-! ## Opcode classes -/

def opcLd : BitVec 8 := 0x00#8
def opcLdx : BitVec 8 := 0x01#8
def opcSt : BitVec 8 := 0x02#8
def opcStx : BitVec 8 := 0x03#8
def opcAlu : BitVec 8 := 0x04#8
def opcJmp : BitVec 8 := 0x05#8
def opcRes : BitVec 8 := 0x06#8
def opcAlu64 : BitVec 8 := 0x07#8

/-! ## Operation codes, sizes and sources -/

def aluAdd : BitVec 8 := 0x00#8
def aluSub : BitVec 8 := 0x01#8
def aluMul : BitVec 8 := 0x02#8
def aluDiv : BitVec 8 := 0x03#8
def aluOr : BitVec 8 := 0x04#8
def aluAnd : BitVec 8 := 0x05#8
def aluLsh : BitVec 8 := 0x06#8
def aluRsh : BitVec 8 := 0x07#8
def aluMod : BitVec 8 := 0x09#8
def aluXor : BitVec 8 := 0x0a#8
def aluMov : BitVec 8 := 0x0b#8
def aluArsh : BitVec 8 := 0x0c#8

def lenW : BitVec 8 := 0x00#8
def lenH : BitVec 8 := 0x01#8
def lenB : BitVec 8 := 0x02#8
def lenDw : BitVec 8 := 0x03#8
def ebpfSizeW : BitVec 8 := lenW <<< 3
def ebpfSizeH : BitVec 8 := lenH <<< 3
def ebpfSizeB : BitVec 8 := lenB <<< 3
def ebpfSizeDw : BitVec 8 := lenDw <<< 3

def jmpJeq : BitVec 8 := 0x01#8
def jmpJgt : BitVec 8 := 0x02#8
def jmpJge : BitVec 8 := 0x03#8
def jmpJset : BitVec 8 := 0x04#8
def jmpJne : BitVec 8 := 0x05#8
def jmpJsgt : BitVec 8 := 0x06#8
def jmpJsge : BitVec 8 := 0x07#8
def jmpJlt : BitVec 8 := 0x0a#8
def jmpJle : BitVec 8 := 0x0b#8
def jmpJslt : BitVec 8 := 0x0c#8
def jmpJsle : BitVec 8 := 0x0d#8

def ebpfSrcImm : BitVec 8 := 0x00#8
def ebpfSrcReg : BitVec 8 := 0x08#8
def ebpfModeImm : BitVec 8 := 0x00#8
def ebpfModeMem : BitVec 8 := 0x60#8

def ebpfOpAdd : BitVec 8 := aluAdd <<< 4
def ebpfOpSub : BitVec 8 := aluSub <<< 4
def ebpfOpMul : BitVec 8 := aluMul <<< 4
def ebpfOpDiv : BitVec 8 := aluDiv <<< 4
def ebpfOpOr : BitVec 8 := aluOr <<< 4
def ebpfOpAnd : BitVec 8 := aluAnd <<< 4
def ebpfOpLsh : BitVec 8 := aluLsh <<< 4
def ebpfOpRsh : BitVec 8 := aluRsh <<< 4
def ebpfOpMod : BitVec 8 := aluMod <<< 4
def ebpfOpXor : BitVec 8 := aluXor <<< 4
def ebpfOpMov : BitVec 8 := aluMov <<< 4
def ebpfOpArsh : BitVec 8 := aluArsh <<< 4

/-! ## 32-bit arithmetic -/

def ebpfOpAddImm : BitVec 8 := opcAlu ||| ebpfSrcImm ||| ebpfOpAdd
def ebpfOpAddReg : BitVec 8 := opcAlu ||| ebpfSrcReg ||| ebpfOpAdd
def ebpfOpSubImm : BitVec 8 := opcAlu ||| ebpfSrcImm ||| ebpfOpSub
def ebpfOpSubReg : BitVec 8 := opcAlu ||| ebpfSrcReg ||| ebpfOpSub
def ebpfOpMulImm : BitVec 8 := opcAlu ||| ebpfSrcImm ||| ebpfOpMul
def ebpfOpMulReg : BitVec 8 := opcAlu ||| ebpfSrcReg ||| ebpfOpMul
def ebpfOpDivImm : BitVec 8 := opcAlu ||| ebpfSrcImm ||| ebpfOpDiv
def ebpfOpDivReg : BitVec 8 := opcAlu ||| ebpfSrcReg ||| ebpfOpDiv
def ebpfOpOrImm : BitVec 8 := opcAlu ||| ebpfSrcImm ||| ebpfOpOr
def ebpfOpOrReg : BitVec 8 := opcAlu ||| ebpfSrcReg ||| ebpfOpOr
def ebpfOpAndImm : BitVec 8 := opcAlu ||| ebpfSrcImm ||| ebpfOpAnd
def ebpfOpAndReg : BitVec 8 := opcAlu ||| ebpfSrcReg ||| ebpfOpAnd
def ebpfOpLshImm : BitVec 8 := opcAlu ||| ebpfSrcImm ||| ebpfOpLsh
def ebpfOpLshReg : BitVec 8 := opcAlu ||| ebpfSrcReg ||| ebpfOpLsh
def ebpfOpRshImm : BitVec 8 := opcAlu ||| ebpfSrcImm ||| ebpfOpRsh
def ebpfOpRshReg : BitVec 8 := opcAlu ||| ebpfSrcReg ||| ebpfOpRsh
def ebpfOpNeg : BitVec 8 := opcAlu ||| 0x80#8
def ebpfOpModImm : BitVec 8 := opcAlu ||| ebpfSrcImm ||| ebpfOpMod
def ebpfOpModReg : BitVec 8 := opcAlu ||| ebpfSrcReg ||| ebpfOpMod
def ebpfOpXorImm : BitVec 8 := opcAlu ||| ebpfSrcImm ||| ebpfOpXor
def ebpfOpXorReg : BitVec 8 := opcAlu ||| ebpfSrcReg ||| ebpfOpXor
def ebpfOpMovImm : BitVec 8 := opcAlu ||| ebpfSrcImm ||| ebpfOpMov
def ebpfOpMovReg : BitVec 8 := opcAlu ||| ebpfSrcReg ||| ebpfOpMov
def ebpfOpArshImm : BitVec 8 := opcAlu ||| ebpfSrcImm ||| ebpfOpArsh
def ebpfOpArshReg : BitVec 8 := opcAlu ||| ebpfSrcReg ||| ebpfOpArsh
def ebpfOpLe : BitVec 8 := opcAlu ||| ebpfSrcImm ||| 0xd0#8
def ebpfOpBe : BitVec 8 := opcAlu ||| ebpfSrcReg ||| 0xd0#8

/-! ## 64-bit arithmetic -/

def ebpfOpAdd64Imm : BitVec 8 := opcAlu64 ||| ebpfSrcImm ||| ebpfOpAdd
def ebpfOpAdd64Reg : BitVec 8 := opcAlu64 ||| ebpfSrcReg ||| ebpfOpAdd
def ebpfOpSub64Imm : BitVec 8 := opcAlu64 ||| ebpfSrcImm ||| ebpfOpSub
def ebpfOpSub64Reg : BitVec 8 := opcAlu64 ||| ebpfSrcReg ||| ebpfOpSub
def ebpfOpMul64Imm : BitVec 8 := opcAlu64 ||| ebpfSrcImm ||| ebpfOpMul
def ebpfOpMul64Reg : BitVec 8 := opcAlu64 ||| ebpfSrcReg ||| ebpfOpMul
def ebpfOpDiv64Imm : BitVec 8 := opcAlu64 ||| ebpfSrcImm ||| ebpfOpDiv
def ebpfOpDiv64Reg : BitVec 8 := opcAlu64 ||| ebpfSrcReg ||| ebpfOpDiv
def ebpfOpOr64Imm : BitVec 8 := opcAlu64 ||| ebpfSrcImm ||| ebpfOpOr
def ebpfOpOr64Reg : BitVec 8 := opcAlu64 ||| ebpfSrcReg ||| ebpfOpOr
def ebpfOpAnd64Imm : BitVec 8 := opcAlu64 ||| ebpfSrcImm ||| ebpfOpAnd
def ebpfOpAnd64Reg : BitVec 8 := opcAlu64 ||| ebpfSrcReg ||| ebpfOpAnd
def ebpfOpLsh64Imm : BitVec 8 := opcAlu64 ||| ebpfSrcImm ||| ebpfOpLsh
def ebpfOpLsh64Reg : BitVec 8 := opcAlu64 ||| ebpfSrcReg ||| ebpfOpLsh
def ebpfOpRsh64Imm : BitVec 8 := opcAlu64 ||| ebpfSrcImm ||| ebpfOpRsh
def ebpfOpRsh64Reg : BitVec 8 := opcAlu64 ||| ebpfSrcReg ||| ebpfOpRsh
def ebpfOpNeg64 : BitVec 8 := opcAlu64 ||| 0x80#8
def ebpfOpMod64Imm : BitVec 8 := opcAlu64 ||| ebpfSrcImm ||| ebpfOpMod
def ebpfOpMod64Reg : BitVec 8 := opcAlu64 ||| ebpfSrcReg ||| ebpfOpMod
def ebpfOpXor64Imm : BitVec 8 := opcAlu64 ||| ebpfSrcImm ||| ebpfOpXor
def ebpfOpXor64Reg : BitVec 8 := opcAlu64 ||| ebpfSrcReg ||| ebpfOpXor
def ebpfOpMov64Imm : BitVec 8 := opcAlu64 ||| ebpfSrcImm ||| ebpfOpMov
def ebpfOpMov64Reg : BitVec 8 := opcAlu64 ||| ebpfSrcReg ||| ebpfOpMov
def ebpfOpArsh64Imm : BitVec 8 := opcAlu64 ||| ebpfSrcImm ||| ebpfOpArsh
def ebpfOpArsh64Reg : BitVec 8 := opcAlu64 ||| ebpfSrcReg ||| ebpfOpArsh

/-! ## Loads and stores -/

def ebpfOpLdxw : BitVec 8 := opcLdx ||| ebpfModeMem ||| ebpfSizeW
def ebpfOpLdxh : BitVec 8 := opcLdx ||| ebpfModeMem ||| ebpfSizeH
def ebpfOpLdxb : BitVec 8 := opcLdx ||| ebpfModeMem ||| ebpfSizeB
def ebpfOpLdxdw : BitVec 8 := opcLdx ||| ebpfModeMem ||| ebpfSizeDw
def ebpfOpStw : BitVec 8 := opcSt ||| ebpfModeMem ||| ebpfSizeW
def ebpfOpSth : BitVec 8 := opcSt ||| ebpfModeMem ||| ebpfSizeH
def ebpfOpStb : BitVec 8 := opcSt ||| ebpfModeMem ||| ebpfSizeB
def ebpfOpStdw : BitVec 8 := opcSt ||| ebpfModeMem ||| ebpfSizeDw
def ebpfOpStxw : BitVec 8 := opcStx ||| ebpfModeMem ||| ebpfSizeW
def ebpfOpStxh : BitVec 8 := opcStx ||| ebpfModeMem ||| ebpfSizeH
def ebpfOpStxb : BitVec 8 := opcStx ||| ebpfModeMem ||| ebpfSizeB
def ebpfOpStxdw : BitVec 8 := opcStx ||| ebpfModeMem ||| ebpfSizeDw
def ebpfOpLddw : BitVec 8 := opcLd ||| ebpfModeImm ||| ebpfSizeDw

/-! ## Jumps -/

def ebpfOpJeq : BitVec 8 := jmpJeq <<< 4
def ebpfOpJgt : BitVec 8 := jmpJgt <<< 4
def ebpfOpJge : BitVec 8 := jmpJge <<< 4
def ebpfOpJset : BitVec 8 := jmpJset <<< 4
def ebpfOpJne : BitVec 8 := jmpJne <<< 4
def ebpfOpJsgt : BitVec 8 := jmpJsgt <<< 4
def ebpfOpJsge : BitVec 8 := jmpJsge <<< 4
def ebpfOpJlt : BitVec 8 := jmpJlt <<< 4
def ebpfOpJle : BitVec 8 := jmpJle <<< 4
def ebpfOpJslt : BitVec 8 := jmpJslt <<< 4
def ebpfOpJsle : BitVec 8 := jmpJsle <<< 4

def ebpfOpJa : BitVec 8 := opcJmp ||| 0x00#8
def ebpfOpJeqImm : BitVec 8 := opcJmp ||| ebpfSrcImm ||| ebpfOpJeq
def ebpfOpJeqReg : BitVec 8 := opcJmp ||| ebpfSrcReg ||| ebpfOpJeq
def ebpfOpJgtImm : BitVec 8 := opcJmp ||| ebpfSrcImm ||| ebpfOpJgt
def ebpfOpJgtReg : BitVec 8 := opcJmp ||| ebpfSrcReg ||| ebpfOpJgt
def ebpfOpJgeImm : BitVec 8 := opcJmp ||| ebpfSrcImm ||| ebpfOpJge
def ebpfOpJgeReg : BitVec 8 := opcJmp ||| ebpfSrcReg ||| ebpfOpJge
def ebpfOpJsetImm : BitVec 8 := opcJmp ||| ebpfSrcImm ||| ebpfOpJset
def ebpfOpJsetReg : BitVec 8 := opcJmp ||| ebpfSrcReg ||| ebpfOpJset
def ebpfOpJneImm : BitVec 8 := opcJmp ||| ebpfSrcImm ||| ebpfOpJne
def ebpfOpJneReg : BitVec 8 := opcJmp ||| ebpfSrcReg ||| ebpfOpJne
def ebpfOpJsgtImm : BitVec 8 := opcJmp ||| ebpfSrcImm ||| ebpfOpJsgt
def ebpfOpJsgtReg : BitVec 8 := opcJmp ||| ebpfSrcReg ||| ebpfOpJsgt
def ebpfOpJsgeImm : BitVec 8 := opcJmp ||| ebpfSrcImm ||| ebpfOpJsge
def ebpfOpJsgeReg : BitVec 8 := opcJmp ||| ebpfSrcReg ||| ebpfOpJsge
def ebpfOpCall : BitVec 8 := opcJmp ||| 0x80#8
def ebpfOpExit : BitVec 8 := opcJmp ||| 0x90#8
def ebpfOpJltImm : BitVec 8 := opcJmp ||| ebpfSrcImm ||| ebpfOpJlt
def ebpfOpJltReg : BitVec 8 := opcJmp ||| ebpfSrcReg ||| ebpfOpJlt
def ebpfOpJleImm : BitVec 8 := opcJmp ||| ebpfSrcImm ||| ebpfOpJle
def ebpfOpJleReg : BitVec 8 := opcJmp ||| ebpfSrcReg ||| ebpfOpJle
def ebpfOpJsltImm : BitVec 8 := opcJmp ||| ebpfSrcImm ||| ebpfOpJslt
def ebpfOpJsltReg : BitVec 8 := opcJmp ||| ebpfSrcReg ||| ebpfOpJslt
def ebpfOpJsleImm : BitVec 8 := opcJmp ||| ebpfSrcImm ||| ebpfOpJsle
def ebpfOpJsleReg : BitVec 8 := opcJmp ||| ebpfSrcReg ||| ebpfOpJsle

end VeBpf
