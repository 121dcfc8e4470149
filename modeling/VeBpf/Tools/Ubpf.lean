import VeBpf.Lib.ByteOrder
import VeBpf.Tools.Encoders

/-!
# The interpreter in user space, `ubpf/vm/ubpf_vm.c`

`ubpf_load` accepts a program that `validate` finds no fault with, and `ubpf_exec`
runs it. The host is a little-endian 64-bit machine on which pointers are numbers,
pointer arithmetic wraps and an access need not be aligned. `undefined` stands for
what else C leaves undefined: to fetch past the last instruction, to access what is
neither the context nor the stack, to divide by zero, to shift by the width or more.
-/

namespace VeBpf

namespace Ubpf

open ByteMem ByteOrder HexText

def maxInsts : Nat := 65536
def stackSize : Nat := 128
def maxExtFuncs : Nat := 64

/-- Lists of opcodes are searched with `==`. -/
scoped instance lawfulOpcodes : LawfulBEq (BitVec 8) := inferInstance

/-- The bytes of the process. -/
abbrev Memory := BitVec 64 → BitVec 8

/-- `ext_func`: five arguments, and it may change the memory. -/
abbrev ExtFunc := Vector (BitVec 64) 5 → Memory → BitVec 64 × Memory

/-- `struct ubpf_vm`, without what only the JIT uses. -/
structure UbpfVm where
  insts : Option (List Insn)
  extFuncs : Vector (Option ExtFunc) maxExtFuncs
  extFuncNames : Vector (Option String) maxExtFuncs
  boundsCheckEnabled : Bool

/-! ## Setting up -/

def ubpfCreate : UbpfVm where
  insts := none
  extFuncs := Vector.replicate _ none
  extFuncNames := Vector.replicate _ none
  boundsCheckEnabled := true

/-- The old setting comes back beside the changed `vm`. -/
def toggleBoundsCheck (vm : UbpfVm) (enable : Bool) : Bool × UbpfVm :=
  (vm.boundsCheckEnabled, { vm with boundsCheckEnabled := enable })

/-- `none` is the result -1. -/
def ubpfRegister (vm : UbpfVm) (idx : BitVec 32) (name : Option String) (fn : Option ExtFunc) :
    Option UbpfVm :=
  if maxExtFuncs ≤ idx.toNat then none
  else some { vm with extFuncs := vm.extFuncs.setIfInBounds idx.toNat fn
                      extFuncNames := vm.extFuncNames.setIfInBounds idx.toNat name }

/-- The first index of the name; `none` is the result -1. -/
def ubpfLookupRegisteredFunction (vm : UbpfVm) (name : String) : Option Nat :=
  vm.extFuncNames.toList.findIdx? (· == some name)

/-! ## Loading -/

/-- What `*errmsg` is set to. The numbers are those printed with `%d` behind `at PC`. -/
inductive LoadError where
  | alreadyLoaded
  | codeLen
  | tooManyInstructions
  | invalidEndian (pc : Nat)
  | incompleteLddw (pc : Nat)
  | infiniteLoop (pc : Nat)
  | jumpOutOfBounds (pc : Nat)
  | jumpToMiddle (pc : Nat)
  | invalidCall (pc : Nat)
  | nonexistentFunction (imm : BitVec 32) (pc : Nat)
  | divisionByZero (pc : Nat)
  | unknownOpcode (opcode : BitVec 8) (pc : Nat)
  | invalidSource (pc : Nat)
  | invalidDestination (pc : Nat)
  deriving DecidableEq, Repr

def LoadError.text : LoadError → String
  | alreadyLoaded => "code has already been loaded into this VM"
  | codeLen => "code_len must be a multiple of 8"
  | tooManyInstructions => "too many instructions (max " ++ toString maxInsts ++ ")"
  | invalidEndian pc => "invalid endian immediate at PC " ++ toString pc
  | incompleteLddw pc => "incomplete lddw at PC " ++ toString pc
  | infiniteLoop pc => "infinite loop at PC " ++ toString pc
  | jumpOutOfBounds pc => "jump out of bounds at PC " ++ toString pc
  | jumpToMiddle pc => "jump to middle of lddw at PC " ++ toString pc
  | invalidCall pc => "invalid call immediate at PC " ++ toString pc
  | nonexistentFunction imm pc =>
      "call to nonexistent function " ++ toString imm.toNat ++ " at PC " ++ toString pc
  | divisionByZero pc => "division by zero at PC " ++ toString pc
  | unknownOpcode opcode pc =>
      "unknown opcode 0x" ++ String.ofList (hexByte opcode) ++ " at PC " ++ toString pc
  | invalidSource pc => "invalid source register at PC " ++ toString pc
  | invalidDestination pc => "invalid destination register at PC " ++ toString pc

/-- The opcodes that `validate` has nothing to check for but the registers. -/
def plainOps : List (BitVec 8) :=
  [ebpfOpAddImm, ebpfOpAddReg, ebpfOpSubImm, ebpfOpSubReg, ebpfOpMulImm, ebpfOpMulReg,
    ebpfOpDivReg, ebpfOpOrImm, ebpfOpOrReg, ebpfOpAndImm, ebpfOpAndReg, ebpfOpLshImm,
    ebpfOpLshReg, ebpfOpRshImm, ebpfOpRshReg, ebpfOpNeg, ebpfOpModReg, ebpfOpXorImm,
    ebpfOpXorReg, ebpfOpMovImm, ebpfOpMovReg, ebpfOpArshImm, ebpfOpArshReg,
    ebpfOpAdd64Imm, ebpfOpAdd64Reg, ebpfOpSub64Imm, ebpfOpSub64Reg, ebpfOpMul64Imm,
    ebpfOpMul64Reg, ebpfOpDiv64Reg, ebpfOpOr64Imm, ebpfOpOr64Reg, ebpfOpAnd64Imm,
    ebpfOpAnd64Reg, ebpfOpLsh64Imm, ebpfOpLsh64Reg, ebpfOpRsh64Imm, ebpfOpRsh64Reg,
    ebpfOpNeg64, ebpfOpMod64Reg, ebpfOpXor64Imm, ebpfOpXor64Reg, ebpfOpMov64Imm,
    ebpfOpMov64Reg, ebpfOpArsh64Imm, ebpfOpArsh64Reg,
    ebpfOpLdxw, ebpfOpLdxh, ebpfOpLdxb, ebpfOpLdxdw, ebpfOpExit]

def endianOps : List (BitVec 8) := [ebpfOpLe, ebpfOpBe]

def storeOps : List (BitVec 8) :=
  [ebpfOpStw, ebpfOpSth, ebpfOpStb, ebpfOpStdw, ebpfOpStxw, ebpfOpStxh, ebpfOpStxb, ebpfOpStxdw]

def jumpOps : List (BitVec 8) :=
  [ebpfOpJa, ebpfOpJeqReg, ebpfOpJeqImm, ebpfOpJgtReg, ebpfOpJgtImm, ebpfOpJgeReg, ebpfOpJgeImm,
    ebpfOpJltReg, ebpfOpJltImm, ebpfOpJleReg, ebpfOpJleImm, ebpfOpJsetReg, ebpfOpJsetImm,
    ebpfOpJneReg, ebpfOpJneImm, ebpfOpJsgtImm, ebpfOpJsgtReg, ebpfOpJsgeImm, ebpfOpJsgeReg,
    ebpfOpJsltImm, ebpfOpJsltReg, ebpfOpJsleImm, ebpfOpJsleReg]

def divImmOps : List (BitVec 8) := [ebpfOpDivImm, ebpfOpModImm, ebpfOpDiv64Imm, ebpfOpMod64Imm]

/-- The checks of a jump at `i`. -/
def checkJump (insts : List Insn) (i : Nat) (inst : Insn) : Except LoadError Unit :=
  let newPc : Int := i + 1 + inst.offset.toInt
  if inst.offset.toInt = -1 then .error (.infiniteLoop i)
  else if newPc < 0 ∨ newPc ≥ insts.length then .error (.jumpOutOfBounds i)
  else if (insts[newPc.toNat]?.map Insn.opcode) = some 0 then .error (.jumpToMiddle i)
  else .ok ()

def checkCall (vm : UbpfVm) (i : Nat) (inst : Insn) : Except LoadError Unit :=
  if inst.imm.toInt < 0 ∨ inst.imm.toInt ≥ maxExtFuncs then .error (.invalidCall i)
  else if (vm.extFuncs[inst.imm.toNat]?.join).isNone then
    .error (.nonexistentFunction inst.imm i)
  else .ok ()

/-- The `switch`, for all opcodes but `LDDW`. -/
def checkInst (vm : UbpfVm) (insts : List Insn) (i : Nat) (inst : Insn) :
    Except LoadError Unit :=
  if inst.opcode ∈ plainOps ∨ inst.opcode ∈ storeOps then .ok ()
  else if inst.opcode ∈ endianOps then
    if inst.imm ≠ 16 ∧ inst.imm ≠ 32 ∧ inst.imm ≠ 64 then .error (.invalidEndian i) else .ok ()
  else if inst.opcode ∈ jumpOps then checkJump insts i inst
  else if inst.opcode = ebpfOpCall then checkCall vm i inst
  else if inst.opcode ∈ divImmOps then
    if inst.imm = 0 then .error (.divisionByZero i) else .ok ()
  else .error (.unknownOpcode inst.opcode i)

/-- What comes behind the `switch`. -/
def checkRegs (i : Nat) (inst : Insn) : Except LoadError Unit :=
  if 10 < inst.src.toNat then .error (.invalidSource i)
  else if 9 < inst.dst.toNat ∧ ¬ (inst.opcode ∈ storeOps ∧ inst.dst = 10) then
    .error (.invalidDestination i)
  else .ok ()

/-- The loop from instruction `i` on; the list is what is left. An `LDDW` has counted `i` up
before its registers are checked. -/
def validateFrom (vm : UbpfVm) (insts : List Insn) : Nat → List Insn → Except LoadError Unit
  | _, [] => .ok ()
  | i, inst :: rest =>
      if inst.opcode = ebpfOpLddw then
        match rest with
        | [] => .error (.incompleteLddw i)
        | second :: rest =>
            if second.opcode ≠ 0 then .error (.incompleteLddw i)
            else do
              checkRegs (i + 1) inst
              validateFrom vm insts (i + 2) rest
      else do
        checkInst vm insts i inst
        checkRegs i inst
        validateFrom vm insts (i + 1) rest

def validate (vm : UbpfVm) (insts : List Insn) : Except LoadError Unit :=
  if maxInsts ≤ insts.length then .error .tooManyInstructions
  else validateFrom vm insts 0 insts

/-- The bytes of the code as an array of `struct ebpf_inst`. -/
def readInsts : List (BitVec 8) → List Insn
  | opcode :: regs :: o₀ :: o₁ :: i₀ :: i₁ :: i₂ :: i₃ :: code =>
      ⟨opcode, regs.extractLsb' 0 4, regs.extractLsb' 4 4, o₁ ++ o₀, i₃ ++ i₂ ++ i₁ ++ i₀⟩
        :: readInsts code
  | _ => []

def ubpfLoad (vm : UbpfVm) (code : List (BitVec 8)) : Except LoadError UbpfVm :=
  if vm.insts.isSome then .error .alreadyLoaded
  else if code.length % 8 ≠ 0 then .error .codeLen
  else do
    validate vm (readInsts code)
    return { vm with insts := some (readInsts code) }

/-! ## Executing -/

inductive AccessType where
  | load
  | store
  deriving DecidableEq, Repr

inductive Undefined where
  | fetch
  | access
  | division
  | shift
  | call
  deriving DecidableEq, Repr

/-- Why `ubpf_exec` stops. -/
inductive Stop where
  | exit (v : BitVec 64)
  | divisionByZero (curPc : BitVec 16)
  | outOfBounds (type : AccessType) (curPc : BitVec 16) (addr : BitVec 64) (size : Nat)
  | undefined (why : Undefined)
  deriving DecidableEq, Repr

/-- The result of `ubpf_exec`. -/
def Stop.result : Stop → Option (BitVec 64)
  | exit v => some v
  | divisionByZero _ => some (BitVec.allOnes 64)
  | outOfBounds _ _ _ _ => some (BitVec.allOnes 64)
  | undefined _ => none

/-- The arguments of `ubpf_exec`, and where its `stack` is. -/
structure Frame where
  vm : UbpfVm
  mem : BitVec 64
  memLen : BitVec 64
  stack : BitVec 64

/-- The variables of `ubpf_exec`, and the memory. -/
structure State where
  pc : BitVec 16
  reg : Vector (BitVec 64) 16
  bytes : Memory

def State.get (s : State) (i : BitVec 4) : BitVec 64 := s.reg[i.toNat]

def State.set (s : State) (i : BitVec 4) (v : BitVec 64) : State :=
  { s with reg := s.reg.set i.toNat v }

def u32 (x : BitVec 64) : BitVec 32 := x.setWidth 32

/-- `x & UINT32_MAX`. -/
def low (x : BitVec 64) : BitVec 64 := x &&& 0xffffffff#64

/-- An `int32_t` in an expression with a `uint64_t`. -/
def wide (imm : BitVec 32) : BitVec 64 := imm.signExtend 64

/-- A shift by `count` of a value of `width` bits. -/
def shifted (width count : Nat) (v : BitVec 64) : Except Stop (BitVec 64) :=
  if count < width then .ok v else .error (.undefined .shift)

/-- A division of a value by a divisor that may be zero. -/
def divided {w : Nat} (divisor : BitVec w) (v : BitVec 64) : Except Stop (BitVec 64) :=
  if divisor = 0 then .error (.undefined .division) else .ok v

/-- `reg[inst.src] == 0` in front of a division. -/
def nonZero (curPc : BitVec 16) (s : BitVec 64) (x : Except Stop (BitVec 64)) :
    Except Stop (BitVec 64) :=
  if s = 0 then .error (.divisionByZero curPc) else x

/-- `htole`, `htobe` by the width in the immediate. -/
def endian (imm : BitVec 32) (d : BitVec 64) (f : Nat → BitVec 64) : BitVec 64 :=
  if imm = 16 then f 2 else if imm = 32 then f 4 else if imm = 64 then f 8 else d

/-- The arms that set `reg[inst.dst]` to a value computed from registers and the immediate. -/
def aluArm (curPc : BitVec 16) (op : BitVec 8) (d s : BitVec 64) (imm : BitVec 32) :
    Option (Except Stop (BitVec 64)) :=
  if op = ebpfOpAddImm then some (.ok (low (d + wide imm)))
  else if op = ebpfOpAddReg then some (.ok (low (d + s)))
  else if op = ebpfOpSubImm then some (.ok (low (d - wide imm)))
  else if op = ebpfOpSubReg then some (.ok (low (d - s)))
  else if op = ebpfOpMulImm then some (.ok (low (d * wide imm)))
  else if op = ebpfOpMulReg then some (.ok (low (d * s)))
  else if op = ebpfOpDivImm then some (divided imm (low ((u32 d / imm).setWidth 64)))
  else if op = ebpfOpDivReg then
    some (nonZero curPc s (divided (u32 s) (low ((u32 d / u32 s).setWidth 64))))
  else if op = ebpfOpOrImm then some (.ok (low (d ||| wide imm)))
  else if op = ebpfOpOrReg then some (.ok (low (d ||| s)))
  else if op = ebpfOpAndImm then some (.ok (low (d &&& wide imm)))
  else if op = ebpfOpAndReg then some (.ok (low (d &&& s)))
  else if op = ebpfOpLshImm then some (shifted 64 imm.toNat (low (d <<< imm.toNat)))
  else if op = ebpfOpLshReg then some (shifted 64 s.toNat (low (d <<< s.toNat)))
  else if op = ebpfOpRshImm then
    some (shifted 32 imm.toNat (low ((u32 d >>> imm.toNat).setWidth 64)))
  else if op = ebpfOpRshReg then
    some (shifted 32 s.toNat (low ((u32 d >>> s.toNat).setWidth 64)))
  else if op = ebpfOpNeg then some (.ok (low (-d)))
  else if op = ebpfOpModImm then some (divided imm (low ((u32 d % imm).setWidth 64)))
  else if op = ebpfOpModReg then
    some (nonZero curPc s (divided (u32 s) ((u32 d % u32 s).setWidth 64)))
  else if op = ebpfOpXorImm then some (.ok (low (d ^^^ wide imm)))
  else if op = ebpfOpXorReg then some (.ok (low (d ^^^ s)))
  else if op = ebpfOpMovImm then some (.ok (low (wide imm)))
  else if op = ebpfOpMovReg then some (.ok (low s))
  else if op = ebpfOpArshImm then
    some (shifted 32 imm.toNat (low (((u32 d).sshiftRight imm.toNat).signExtend 64)))
  else if op = ebpfOpArshReg then
    some (shifted 32 (u32 s).toNat (low (((u32 d).sshiftRight (u32 s).toNat).signExtend 64)))
  else if op = ebpfOpLe then
    some (.ok (endian imm d fun n => (d.setWidth (8 * n)).setWidth 64))
  else if op = ebpfOpBe then some (.ok (endian imm d (swapped d)))
  else if op = ebpfOpAdd64Imm then some (.ok (d + wide imm))
  else if op = ebpfOpAdd64Reg then some (.ok (d + s))
  else if op = ebpfOpSub64Imm then some (.ok (d - wide imm))
  else if op = ebpfOpSub64Reg then some (.ok (d - s))
  else if op = ebpfOpMul64Imm then some (.ok (d * wide imm))
  else if op = ebpfOpMul64Reg then some (.ok (d * s))
  else if op = ebpfOpDiv64Imm then some (divided (wide imm) (d / wide imm))
  else if op = ebpfOpDiv64Reg then some (nonZero curPc s (.ok (d / s)))
  else if op = ebpfOpOr64Imm then some (.ok (d ||| wide imm))
  else if op = ebpfOpOr64Reg then some (.ok (d ||| s))
  else if op = ebpfOpAnd64Imm then some (.ok (d &&& wide imm))
  else if op = ebpfOpAnd64Reg then some (.ok (d &&& s))
  else if op = ebpfOpLsh64Imm then some (shifted 64 imm.toNat (d <<< imm.toNat))
  else if op = ebpfOpLsh64Reg then some (shifted 64 s.toNat (d <<< s.toNat))
  else if op = ebpfOpRsh64Imm then some (shifted 64 imm.toNat (d >>> imm.toNat))
  else if op = ebpfOpRsh64Reg then some (shifted 64 s.toNat (d >>> s.toNat))
  else if op = ebpfOpNeg64 then some (.ok (-d))
  else if op = ebpfOpMod64Imm then some (divided (wide imm) (d % wide imm))
  else if op = ebpfOpMod64Reg then some (nonZero curPc s (.ok (d % s)))
  else if op = ebpfOpXor64Imm then some (.ok (d ^^^ wide imm))
  else if op = ebpfOpXor64Reg then some (.ok (d ^^^ s))
  else if op = ebpfOpMov64Imm then some (.ok (wide imm))
  else if op = ebpfOpMov64Reg then some (.ok s)
  else if op = ebpfOpArsh64Imm then some (shifted 64 imm.toNat (d.sshiftRight imm.toNat))
  else if op = ebpfOpArsh64Reg then some (shifted 64 s.toNat (d.sshiftRight s.toNat))
  else none

/-- The size of an `LDX`. -/
def ldxArm (op : BitVec 8) : Option Nat :=
  if op = ebpfOpLdxw then some 4
  else if op = ebpfOpLdxh then some 2
  else if op = ebpfOpLdxb then some 1
  else if op = ebpfOpLdxdw then some 8
  else none

/-- The size of an `ST` or `STX`, and the value of which so many bytes are stored. -/
def storeArm (op : BitVec 8) (s : BitVec 64) (imm : BitVec 32) : Option (Nat × BitVec 64) :=
  if op = ebpfOpStw then some (4, wide imm)
  else if op = ebpfOpSth then some (2, wide imm)
  else if op = ebpfOpStb then some (1, wide imm)
  else if op = ebpfOpStdw then some (8, wide imm)
  else if op = ebpfOpStxw then some (4, s)
  else if op = ebpfOpStxh then some (2, s)
  else if op = ebpfOpStxb then some (1, s)
  else if op = ebpfOpStxdw then some (8, s)
  else none

/-- Is the jump taken? Order comparisons with an immediate do not extend its sign, unless they
are signed themselves. -/
def jumpArm (op : BitVec 8) (d s : BitVec 64) (imm : BitVec 32) : Option Bool :=
  if op = ebpfOpJa then some true
  else if op = ebpfOpJeqImm then some (d == wide imm)
  else if op = ebpfOpJeqReg then some (d == s)
  else if op = ebpfOpJgtImm then some ((imm.setWidth 64).ult d)
  else if op = ebpfOpJgtReg then some (s.ult d)
  else if op = ebpfOpJgeImm then some ((imm.setWidth 64).ule d)
  else if op = ebpfOpJgeReg then some (s.ule d)
  else if op = ebpfOpJltImm then some (d.ult (imm.setWidth 64))
  else if op = ebpfOpJltReg then some (d.ult s)
  else if op = ebpfOpJleImm then some (d.ule (imm.setWidth 64))
  else if op = ebpfOpJleReg then some (d.ule s)
  else if op = ebpfOpJsetImm then some (d &&& wide imm != 0)
  else if op = ebpfOpJsetReg then some (d &&& s != 0)
  else if op = ebpfOpJneImm then some (d != wide imm)
  else if op = ebpfOpJneReg then some (d != s)
  else if op = ebpfOpJsgtImm then some ((wide imm).slt d)
  else if op = ebpfOpJsgtReg then some (s.slt d)
  else if op = ebpfOpJsgeImm then some ((wide imm).sle d)
  else if op = ebpfOpJsgeReg then some (s.sle d)
  else if op = ebpfOpJsltImm then some (d.slt (wide imm))
  else if op = ebpfOpJsltReg then some (d.slt s)
  else if op = ebpfOpJsleImm then some (d.sle (wide imm))
  else if op = ebpfOpJsleReg then some (d.sle s)
  else none

namespace Frame

variable (e : Frame)

/-- `bounds_check`. -/
def boundsCheck (addr : BitVec 64) (size : Nat) : Bool :=
  if !e.vm.boundsCheckEnabled then true
  else if e.mem ≠ 0 ∧ e.mem ≤ addr ∧ addr + BitVec.ofNat 64 size ≤ e.mem + e.memLen then true
  else if e.stack ≤ addr
      ∧ addr + BitVec.ofNat 64 size ≤ e.stack + BitVec.ofNat 64 stackSize then true
  else false

/-- The access lies in the context. -/
def InMem (addr : BitVec 64) (size : Nat) : Prop :=
  e.mem ≠ 0 ∧ e.mem.toNat ≤ addr.toNat ∧ addr.toNat + size ≤ e.mem.toNat + e.memLen.toNat

/-- The access lies in the stack. -/
def InStack (addr : BitVec 64) (size : Nat) : Prop :=
  e.stack.toNat ≤ addr.toNat ∧ addr.toNat + size ≤ e.stack.toNat + stackSize

instance (addr : BitVec 64) (size : Nat) : Decidable (e.InMem addr size) :=
  inferInstanceAs (Decidable (_ ∧ _))

instance (addr : BitVec 64) (size : Nat) : Decidable (e.InStack addr size) :=
  inferInstanceAs (Decidable (_ ∧ _))

/-- An access behind its bounds check. -/
def access (type : AccessType) (curPc : BitVec 16) (addr : BitVec 64) (size : Nat) (s : State) :
    Except Stop State :=
  if !e.boundsCheck addr size then .error (.outOfBounds type curPc addr size)
  else if e.InMem addr size ∨ e.InStack addr size then .ok s
  else .error (.undefined .access)

def call (inst : Insn) (s : State) : Except Stop State :=
  if inst.imm.toInt < 0 then .error (.undefined .call)
  else
    match e.vm.extFuncs[inst.imm.toNat]?.join with
    | none => .error (.undefined .call)
    | some fn =>
        let r := fn #v[s.get 1, s.get 2, s.get 3, s.get 4, s.get 5] s.bytes
        .ok { s.set 0 r.1 with bytes := r.2 }

/-- The `switch`, after `pc++`. An opcode that has no case does nothing. -/
def exec (insts : List Insn) (curPc : BitVec 16) (inst : Insn) (s : State) :
    Except Stop State :=
  match aluArm curPc inst.opcode (s.get inst.dst) (s.get inst.src) inst.imm with
  | some r => r.map (s.set inst.dst)
  | none =>
    match ldxArm inst.opcode with
    | some size =>
        let addr := s.get inst.src + inst.offset.signExtend 64
        e.access .load curPc addr size (s.set inst.dst (loadLE 64 s.bytes addr size))
    | none =>
      match storeArm inst.opcode (s.get inst.src) inst.imm with
      | some (size, v) =>
          let addr := s.get inst.dst + inst.offset.signExtend 64
          e.access .store curPc addr size { s with bytes := storeLE s.bytes addr v size }
      | none =>
        match jumpArm inst.opcode (s.get inst.dst) (s.get inst.src) inst.imm with
        | some taken => .ok (if taken then { s with pc := s.pc + inst.offset } else s)
        | none =>
          if inst.opcode = ebpfOpLddw then
            match insts[s.pc.toNat]? with
            | none => .error (.undefined .fetch)
            | some second =>
                .ok { s.set inst.dst (second.imm ++ inst.imm) with pc := s.pc + 1 }
          else if inst.opcode = ebpfOpExit then .error (.exit (s.get 0))
          else if inst.opcode = ebpfOpCall then e.call inst s
          else .ok s

/-- One turn of the loop. -/
def step (insts : List Insn) (s : State) : Except Stop State :=
  match insts[s.pc.toNat]? with
  | none => .error (.undefined .fetch)
  | some inst => e.exec insts s.pc inst { s with pc := s.pc + 1 }

/-- The variables in front of the loop. The other registers and the stack hold what was there. -/
def start (reg : Vector (BitVec 64) 16) (bytes : Memory) : State where
  pc := 0
  reg := (reg.set 1 e.mem).set 10 (e.stack + BitVec.ofNat 64 stackSize)
  bytes := bytes

/-- The loop, for at most `fuel` turns. -/
def loop (insts : List Insn) : Nat → State → Option (Stop × State)
  | 0, _ => none
  | fuel + 1, s =>
      match e.step insts s with
      | .error stop => some (stop, s)
      | .ok s' => loop insts fuel s'

/-- `ubpf_exec`: what it returns, and the memory it leaves, once it stops within `fuel` turns. -/
def ubpfExec (reg : Vector (BitVec 64) 16) (bytes : Memory) (fuel : Nat) :
    Option (Option (BitVec 64) × Memory) :=
  match e.vm.insts with
  | none => some (some (BitVec.allOnes 64), bytes)
  | some insts => (e.loop insts fuel (e.start reg bytes)).map fun r => (r.1.result, r.2.bytes)

end Frame

end Ubpf

end VeBpf
