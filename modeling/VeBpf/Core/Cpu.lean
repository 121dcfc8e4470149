import VeBpf.Core.Params

/-!
# The core, `cpu.v`

The registers of the module, the wires it derives from them, and what one clock
edge does. The sub-modules appear only through the wires the core reads
(`Wires`); `VeBpf.Core.System` connects them.

The arms of `case (opcode)` that differ only in an operand or an operator are
tables here: `aluDefault` is the inner `case` of `OPC_ALU`, with `none` for its
`default` arm, and so on. An arm reads the registers before the edge (`c`) and
adds to the ones after it (`n`), so a later write wins as it does in the source.

The `debug` registers are left out: nothing reads them.
-/

namespace VeBpf

/-! ## Instruction words -/

/-- `instruction[63:56]`. -/
def opcodeOf (w : BitVec 64) : BitVec 8 := w.extractLsb' 56 8

/-- `instruction[55:52]`. -/
def srcOf (w : BitVec 64) : BitVec 4 := w.extractLsb' 52 4

/-- `instruction[51:48]`. -/
def dstOf (w : BitVec 64) : BitVec 4 := w.extractLsb' 48 4

/-- `{instruction[47:40], instruction[39:32]}`. -/
def offsetOf (w : BitVec 64) : BitVec 16 := w.extractLsb' 40 8 ++ w.extractLsb' 32 8

/-- `{instruction[31:24], instruction[23:16], instruction[15:8], instruction[7:0]}`. -/
def immediateOf (w : BitVec 64) : BitVec 32 :=
  w.extractLsb' 24 8 ++ w.extractLsb' 16 8 ++ w.extractLsb' 8 8 ++ w.extractLsb' 0 8

/-- `opcode[2:0]`, widened for comparison with the class parameters. -/
def opclassOf (op : BitVec 8) : BitVec 8 := (op.extractLsb' 0 3).setWidth 8

/-! ## The register file -/

/-- `reg [63:0] regs [MAX_REGS-1:0]`. -/
abbrev Regs := Vector (BitVec 64) 11

namespace Regs

def read (r : Regs) (i : BitVec 4) : BitVec 64 := r[i.toNat]?.getD 0

def write (r : Regs) (i : BitVec 4) (v : BitVec 64) : Regs := r.setIfInBounds i.toNat v

theorem read_write_self (r : Regs) (i : BitVec 4) (v : BitVec 64) (hi : i.toNat < maxRegs) :
    (r.write i v).read i = v := by
  have h : i.toNat < 11 := hi
  simp [read, write, h]

theorem write_write (r : Regs) (i : BitVec 4) (v v' : BitVec 64) :
    (r.write i v).write i v' = r.write i v' := by
  simp [write]

end Regs

/-! ## Registers and wires -/

/-- The states of the core. -/
inductive CpuState where
  | opFetch
  | decode
  | dataFetch
  | divPending
  | callPending
  | halt
  | opFetchDelay
  deriving DecidableEq, Repr

/-- The registers of `cpu`. -/
structure Cpu where
  ticks : BitVec 64
  error : Bool
  halt : Bool
  ipNext : BitVec 10
  ip : BitVec 10
  instruction : BitVec 64
  stateNext : CpuState
  stateNextTemp : CpuState
  keepOp : BitVec 8
  keepDst : BitVec 4
  regs : Regs
  cpuDataAck : Bool
  cpuDiv64Ack : Bool
  dataStb : Bool
  dataAdr : BitVec 11
  dataWe : Bool
  dataWw : BitVec 4
  dataDatW : BitVec 64
  arsh64Stb : Bool
  arsh64Arith : Bool
  arsh64Left : Bool
  arsh64Value : BitVec 64
  arsh64Shift : BitVec 64
  div64Dividend : BitVec 64
  div64Divisor : BitVec 64
  div64Stb : Bool
  callHandlerFunc : BitVec 64
  callHandlerStb : Bool
  callHandlerR1 : BitVec 64
  callHandlerR2 : BitVec 64
  callHandlerR3 : BitVec 64
  callHandlerR4 : BitVec 64
  callHandlerR5 : BitVec 64

/-- What the core sees of its sub-modules. -/
structure Wires where
  pgmDatR : BitVec 64
  dataAck : Bool
  dataDatR0 : BitVec 8
  dataDatR2 : BitVec 16
  dataDatR4 : BitVec 32
  dataDatR8 : BitVec 64
  arsh64Out : BitVec 64
  arsh64Ack : Bool
  div64Quotient : BitVec 64
  div64Remainder : BitVec 64
  div64Ack : Bool
  div64Err : Bool
  callHandlerRet : BitVec 64
  callHandlerAck : Bool
  callHandlerErr : Bool

namespace Cpu

/-- The opcode byte, or the one kept from the first half of an `LDDW`. -/
def opcode (c : Cpu) : BitVec 8 :=
  if c.keepOp = 0 then opcodeOf c.instruction else c.keepOp

def src (c : Cpu) : BitVec 4 := srcOf c.instruction

def dst (c : Cpu) : BitVec 4 := if c.keepOp = 0 then dstOf c.instruction else c.keepDst

def offset (c : Cpu) : BitVec 16 := offsetOf c.instruction

def immediate (c : Cpu) : BitVec 32 := immediateOf c.instruction

def srcReg (c : Cpu) : BitVec 64 := c.regs.read c.src

def dstReg (c : Cpu) : BitVec 64 := c.regs.read c.dst

/-- `error <= 1; halt <= 1`. -/
def fault (n : Cpu) : Cpu := { n with error := true, halt := true }

/-- The tail that every finished instruction but a jump shares: step the
instruction pointer, load the prefetched word and wait for the program memory. -/
def advance (n : Cpu) (w : Wires) (temp : CpuState) : Cpu :=
  { n with ipNext := n.ipNext + 1, ip := n.ipNext, instruction := w.pgmDatR,
           stateNext := .opFetchDelay, stateNextTemp := temp }

end Cpu

/-! ## Operand and result tables -/

/-- The bits a 32-bit operation keeps, `& 32'hffffffff`. -/
def low32 (x : BitVec 64) : BitVec 64 := x &&& 0xffffffff#64

/-- A request to the divider, and which of its outputs is the result. -/
structure DivRequest where
  dividend : BitVec 64
  divisor : BitVec 64
  wantsRemainder : Bool

/-- A request to the shifter, and the state after the fetch that follows. -/
structure ShiftRequest where
  value : BitVec 64
  shift : BitVec 64
  arith : Bool
  left : Bool
  temp : CpuState

/-- The `DIV` and `MOD` arms of `OPC_ALU`; `d` and `s` are `regs[dst]` and `regs[src]`. -/
def aluDiv32 (op : BitVec 8) (d s : BitVec 64) (imm : BitVec 32) : Option DivRequest :=
  if op = ebpfOpDivImm then some ⟨low32 d, low32 (imm.setWidth 64), false⟩
  else if op = ebpfOpDivReg then some ⟨low32 d, low32 s, false⟩
  else if op = ebpfOpModImm then some ⟨low32 d, low32 (imm.setWidth 64), true⟩
  else if op = ebpfOpModReg then some ⟨low32 d, low32 s, true⟩
  else none

/-- The shift arms of `OPC_ALU`. Only `RSH_IMM` names the state to return to. -/
def aluShift32 (op : BitVec 8) (d s : BitVec 64) (imm : BitVec 32) (state : CpuState) :
    Option ShiftRequest :=
  if op = ebpfOpArshImm then
    some ⟨(d.setWidth 32).signExtend 64, imm.setWidth 64, true, false, state⟩
  else if op = ebpfOpArshReg then
    some ⟨(d.setWidth 32).signExtend 64, low32 s, true, false, state⟩
  else if op = ebpfOpLshImm then some ⟨low32 d, imm.setWidth 64, false, true, state⟩
  else if op = ebpfOpLshReg then some ⟨low32 d, low32 s, false, true, state⟩
  else if op = ebpfOpRshImm then some ⟨low32 d, imm.setWidth 64, false, false, .decode⟩
  else if op = ebpfOpRshReg then some ⟨low32 d, low32 s, false, false, state⟩
  else none

/-- `EBPF_OP_LE`, `case (immediate)`. -/
def leArm (d : BitVec 64) (imm : BitVec 32) : Option (BitVec 64) :=
  if imm = 16#32 then some ((d.extractLsb' 8 8 ++ d.extractLsb' 0 8).setWidth 64)
  else if imm = 32#32 then
    some ((d.extractLsb' 24 8 ++ d.extractLsb' 16 8 ++ d.extractLsb' 8 8
      ++ d.extractLsb' 0 8).setWidth 64)
  else if imm = 64#32 then
    some (d.extractLsb' 56 8 ++ d.extractLsb' 48 8 ++ d.extractLsb' 40 8 ++ d.extractLsb' 32 8
      ++ d.extractLsb' 24 8 ++ d.extractLsb' 16 8 ++ d.extractLsb' 8 8 ++ d.extractLsb' 0 8)
  else none

/-- `EBPF_OP_BE`, `case (immediate)`. -/
def beArm (d : BitVec 64) (imm : BitVec 32) : Option (BitVec 64) :=
  if imm = 16#32 then some ((d.extractLsb' 0 8 ++ d.extractLsb' 8 8).setWidth 64)
  else if imm = 32#32 then
    some ((d.extractLsb' 0 8 ++ d.extractLsb' 8 8 ++ d.extractLsb' 16 8
      ++ d.extractLsb' 24 8).setWidth 64)
  else if imm = 64#32 then
    some (d.extractLsb' 0 8 ++ d.extractLsb' 8 8 ++ d.extractLsb' 16 8 ++ d.extractLsb' 24 8
      ++ d.extractLsb' 32 8 ++ d.extractLsb' 40 8 ++ d.extractLsb' 48 8 ++ d.extractLsb' 56 8)
  else none

/-- The inner `case` of `OPC_ALU`: the new `regs[dst]`, or `none` for an error. -/
def aluDefault32 (op : BitVec 8) (d s : BitVec 64) (imm : BitVec 32) : Option (BitVec 64) :=
  let i := imm.setWidth 64
  if op = ebpfOpAddImm then some (low32 (d + i))
  else if op = ebpfOpAddReg then some (low32 (d + s))
  else if op = ebpfOpSubImm then some (low32 (d - i))
  else if op = ebpfOpSubReg then some (low32 (d - s))
  else if op = ebpfOpMulImm then some (low32 (d * i))
  else if op = ebpfOpMulReg then some (low32 (d * s))
  else if op = ebpfOpOrImm then some (low32 (d ||| i))
  else if op = ebpfOpOrReg then some (low32 (d ||| s))
  else if op = ebpfOpAndImm then some (low32 (d &&& i))
  else if op = ebpfOpAndReg then some (low32 (d &&& s))
  else if op = ebpfOpNeg then some (low32 (-d))
  else if op = ebpfOpXorImm then some (low32 (d ^^^ i))
  else if op = ebpfOpXorReg then some (low32 (d ^^^ s))
  else if op = ebpfOpMovImm then some i
  else if op = ebpfOpMovReg then some s
  else if op = ebpfOpLe then leArm d imm
  else if op = ebpfOpBe then beArm d imm
  else none

/-- The `DIV64` and `MOD64` arms of `OPC_ALU64`. -/
def aluDiv64 (op : BitVec 8) (d s : BitVec 64) (imm : BitVec 32) : Option DivRequest :=
  if op = ebpfOpDiv64Imm then some ⟨d, imm.setWidth 64, false⟩
  else if op = ebpfOpDiv64Reg then some ⟨d, s, false⟩
  else if op = ebpfOpMod64Imm then some ⟨d, imm.setWidth 64, true⟩
  else if op = ebpfOpMod64Reg then some ⟨d, s, true⟩
  else none

/-- The shift arms of `OPC_ALU64`. -/
def aluShift64 (op : BitVec 8) (d s : BitVec 64) (imm : BitVec 32) (state : CpuState) :
    Option ShiftRequest :=
  if op = ebpfOpArsh64Imm then some ⟨d, imm.setWidth 64, true, false, state⟩
  else if op = ebpfOpArsh64Reg then some ⟨d, s, true, false, state⟩
  else if op = ebpfOpLsh64Imm then some ⟨d, imm.setWidth 64, false, true, state⟩
  else if op = ebpfOpLsh64Reg then some ⟨d, s, false, true, state⟩
  else if op = ebpfOpRsh64Imm then some ⟨d, imm.setWidth 64, false, false, state⟩
  else if op = ebpfOpRsh64Reg then some ⟨d, s, false, false, state⟩
  else none

/-- The inner `case` of `OPC_ALU64`. `NEG64` negates `regs[src]`. -/
def aluDefault64 (op : BitVec 8) (d s : BitVec 64) (imm : BitVec 32) : Option (BitVec 64) :=
  let i := imm.setWidth 64
  if op = ebpfOpAdd64Imm then some (d + i)
  else if op = ebpfOpAdd64Reg then some (d + s)
  else if op = ebpfOpSub64Imm then some (d - i)
  else if op = ebpfOpSub64Reg then some (d - s)
  else if op = ebpfOpMul64Imm then some (d * i)
  else if op = ebpfOpMul64Reg then some (d * s)
  else if op = ebpfOpOr64Imm then some (d ||| i)
  else if op = ebpfOpOr64Reg then some (d ||| s)
  else if op = ebpfOpAnd64Imm then some (d &&& i)
  else if op = ebpfOpAnd64Reg then some (d &&& s)
  else if op = ebpfOpNeg64 then some (-s)
  else if op = ebpfOpXor64Imm then some (d ^^^ i)
  else if op = ebpfOpXor64Reg then some (d ^^^ s)
  else if op = ebpfOpMov64Imm then some i
  else if op = ebpfOpMov64Reg then some s
  else none

/-- The arms of `OPC_LDX` after the memory has answered. -/
def ldxArm (op : BitVec 8) (w : Wires) : Option (BitVec 64) :=
  if op = ebpfOpLdxb then some (w.dataDatR0.setWidth 64)
  else if op = ebpfOpLdxh then some (w.dataDatR2.setWidth 64)
  else if op = ebpfOpLdxw then some (w.dataDatR4.setWidth 64)
  else if op = ebpfOpLdxdw then some w.dataDatR8
  else none

/-- The arms of `OPC_ST`: width and data. -/
def stArm (op : BitVec 8) (imm : BitVec 32) : Option (BitVec 4 × BitVec 64) :=
  if op = ebpfOpStb then some (1, (imm.extractLsb' 0 8).setWidth 64)
  else if op = ebpfOpSth then some (2, (imm.extractLsb' 0 16).setWidth 64)
  else if op = ebpfOpStw then some (4, (imm.extractLsb' 0 32).setWidth 64)
  else if op = ebpfOpStdw then some (8, imm.setWidth 64)
  else none

/-- The arms of `OPC_STX`: width and data. -/
def stxArm (op : BitVec 8) (s : BitVec 64) : Option (BitVec 4 × BitVec 64) :=
  if op = ebpfOpStxb then some (1, (s.extractLsb' 0 8).setWidth 64)
  else if op = ebpfOpStxh then some (2, (s.extractLsb' 0 16).setWidth 64)
  else if op = ebpfOpStxw then some (4, (s.extractLsb' 0 32).setWidth 64)
  else if op = ebpfOpStxdw then some (8, s)
  else none

/-- The jump arms of `OPC_JMP`: is the jump taken, or `none` for an error. The
signed comparisons use the 32-bit wires. -/
def jmpArm (op : BitVec 8) (d s : BitVec 64) (imm : BitVec 32) : Option Bool :=
  let i := imm.setWidth 64
  let d32 := d.setWidth 32
  let s32 := s.setWidth 32
  if op = ebpfOpJa then some true
  else if op = ebpfOpJeqImm then some (d == i)
  else if op = ebpfOpJeqReg then some (d == s)
  else if op = ebpfOpJgtImm then some (i.ult d)
  else if op = ebpfOpJgtReg then some (s.ult d)
  else if op = ebpfOpJgeImm then some (i.ule d)
  else if op = ebpfOpJgeReg then some (s.ule d)
  else if op = ebpfOpJsetImm then some (d &&& i != 0)
  else if op = ebpfOpJsetReg then some (d &&& s != 0)
  else if op = ebpfOpJneImm then some (d != i)
  else if op = ebpfOpJneReg then some (d != s)
  else if op = ebpfOpJsgtImm then some (imm.slt d32)
  else if op = ebpfOpJsgtReg then some (s32.slt d32)
  else if op = ebpfOpJsgeImm then some (imm.sle d32)
  else if op = ebpfOpJsgeReg then some (s32.sle d32)
  else if op = ebpfOpJltImm then some (d.ult i)
  else if op = ebpfOpJltReg then some (d.ult s)
  else if op = ebpfOpJleImm then some (d.ule i)
  else if op = ebpfOpJleReg then some (d.ule s)
  else if op = ebpfOpJsltImm then some (d32.slt imm)
  else if op = ebpfOpJsltReg then some (d32.slt s32)
  else if op = ebpfOpJsleImm then some (d32.sle imm)
  else if op = ebpfOpJsleReg then some (d32.sle s32)
  else none

/-! ## `STATE_DECODE` -/

namespace Cpu

/-- `regs[base] + offset`, cut to the 11 bits of `data_adr`. -/
def dataAddress (c : Cpu) (base : BitVec 64) : BitVec 11 :=
  (base + c.offset.setWidth 64).setWidth 11

/-- `OPC_LD`: the two halves of `LDDW`. -/
def opcLdArm (c n : Cpu) (w : Wires) : Cpu :=
  if c.opcode = ebpfOpLddw then
    if c.keepOp = 0 then
      -- the lower half; the second word finds its opcode and destination kept
      { n with regs := c.regs.write c.dst (c.immediate.setWidth 64),
               keepOp := c.opcode, keepDst := c.dst }.advance w c.stateNext
    else
      let joined := c.immediate ++ c.dstReg.extractLsb' 0 32
      { n with regs := c.regs.write c.dst joined }.advance w c.stateNext
  else n.fault

/-- `OPC_LDX`. -/
def opcLdxArm (c n : Cpu) (w : Wires) : Cpu :=
  if !c.cpuDataAck then
    { n with dataAdr := c.dataAddress c.srcReg, stateNext := .dataFetch }
  else
    match ldxArm c.opcode w with
    | some v => { n with regs := c.regs.write c.dst v }.advance w c.stateNext
    | none => n.fault.advance w c.stateNext

/-- `OPC_ST` and `OPC_STX`, which differ in the table they read. -/
def storeArm (c n : Cpu) (w : Wires) (arm : Option (BitVec 4 × BitVec 64)) : Cpu :=
  if !c.cpuDataAck then
    -- the strobe follows in `STATE_DATA_FETCH`
    let n := { n with dataAdr := c.dataAddress c.dstReg, dataWe := true, stateNext := .dataFetch }
    match arm with
    | some (ww, v) => { n with dataWw := ww, dataDatW := v }
    | none => n.fault
  else n.advance w c.stateNext

/-- `OPC_ALU` and `OPC_ALU64`, which differ in their tables and in what a shift keeps. -/
def aluArm (c n : Cpu) (w : Wires) (div : Option DivRequest) (shift : Option ShiftRequest)
    (keep : BitVec 64 → BitVec 64) (res : Option (BitVec 64)) : Cpu :=
  let n := { n with cpuDiv64Ack := false }
  match div, shift with
  | some q, _ =>
      if !c.cpuDiv64Ack then
        { n with div64Dividend := q.dividend, div64Divisor := q.divisor,
                 stateNext := .divPending, div64Stb := true }
      else
        let result := if q.wantsRemainder then w.div64Remainder else w.div64Quotient
        { n with regs := c.regs.write c.dst result }.advance w c.stateNext
  | none, some q =>
      if !w.arsh64Ack then
        -- the core stays in `STATE_DECODE` and asks again until the shifter answers
        { n with arsh64Value := q.value, arsh64Shift := q.shift, arsh64Arith := q.arith,
                 arsh64Left := q.left, arsh64Stb := true }
      else
        { n with regs := c.regs.write c.dst (keep w.arsh64Out),
                 arsh64Stb := false }.advance w q.temp
  | none, none =>
      match res with
      | some v => { n with regs := c.regs.write c.dst v }.advance w c.stateNext
      | none => n.fault.advance w c.stateNext

/-- `OPC_JMP`. -/
def opcJmpArm (c n : Cpu) : Cpu :=
  if c.opcode = ebpfOpCall then
    { n with callHandlerR1 := c.regs.read 1, callHandlerR2 := c.regs.read 2,
             callHandlerR3 := c.regs.read 3, callHandlerR4 := c.regs.read 4,
             callHandlerR5 := c.regs.read 5, callHandlerFunc := c.immediate.setWidth 64,
             callHandlerStb := true, stateNext := .callPending }
  else
    -- the prefetched word is dropped: the next one is fetched from `ip_next`
    let n := { n with stateNext := .opFetch, ip := c.ipNext }
    if c.opcode = ebpfOpExit then { n with halt := true }
    else
      match jmpArm c.opcode c.dstReg c.srcReg c.immediate with
      | some true => { n with ipNext := (c.ipNext.setWidth 16 + c.offset).setWidth 10 }
      | some false => n
      | none => n.fault

/-- `STATE_DECODE`. -/
def decode (c n : Cpu) (w : Wires) : Cpu :=
  let n := { n with keepOp := 0, cpuDataAck := false }
  let cls := opclassOf c.opcode
  if cls = opcLd then c.opcLdArm n w
  else if cls = opcLdx then c.opcLdxArm n w
  else if cls = opcSt then c.storeArm n w (stArm c.opcode c.immediate)
  else if cls = opcStx then c.storeArm n w (stxArm c.opcode c.srcReg)
  else if cls = opcAlu then
    c.aluArm n w (aluDiv32 c.opcode c.dstReg c.srcReg c.immediate)
      (aluShift32 c.opcode c.dstReg c.srcReg c.immediate c.stateNext) low32
      (aluDefault32 c.opcode c.dstReg c.srcReg c.immediate)
  else if cls = opcJmp then c.opcJmpArm n
  else if cls = opcRes then n.fault
  else if cls = opcAlu64 then
    c.aluArm n w (aluDiv64 c.opcode c.dstReg c.srcReg c.immediate)
      (aluShift64 c.opcode c.dstReg c.srcReg c.immediate c.stateNext) id
      (aluDefault64 c.opcode c.dstReg c.srcReg c.immediate)
  else n

/-! ## The other states -/

/-- `STATE_OP_FETCH`. -/
def opFetch (c n : Cpu) (w : Wires) : Cpu :=
  { n with ipNext := c.ipNext + 1, ip := c.ipNext, instruction := w.pgmDatR,
           stateNext := .opFetchDelay, stateNextTemp := .decode }

/-- `STATE_OP_FETCH_DELAY`. -/
def opFetchDelay (c n : Cpu) (w : Wires) : Cpu :=
  { n with instruction := w.pgmDatR, stateNext := c.stateNextTemp }

/-- `STATE_DATA_FETCH`. -/
def dataFetch (n : Cpu) (w : Wires) : Cpu :=
  if w.dataAck then
    { n with dataStb := false, dataWe := false, stateNext := .decode, cpuDataAck := true }
  else { n with dataStb := true }

/-- `STATE_DIV_PENDING`. -/
def divPending (c n : Cpu) (w : Wires) : Cpu :=
  if c.div64Stb then { n with div64Stb := false }
  else if w.div64Ack then
    if w.div64Err then
      -- a quotient by zero clears its register, a remainder does not
      if c.opcode &&& 0xf0#8 ≠ ebpfOpMod then { n with regs := c.regs.write c.dst 0 }.fault
      else n.fault
    else { n with stateNext := .decode, cpuDiv64Ack := true }
  else n

/-- `STATE_CALL_PENDING`. -/
def callPending (c n : Cpu) (w : Wires) : Cpu :=
  if w.callHandlerAck then
    let n := { n with callHandlerStb := false }
    if w.callHandlerErr then n.fault
    else { n with regs := c.regs.write 0 w.callHandlerRet }.advance w .decode
  else n

/-- `src >= MAX_REGS`, `dst >= MAX_REGS` or an incomplete `LDDW`. -/
def rejects (c : Cpu) : Bool :=
  decide (maxRegs ≤ c.src.toNat) || decide (maxRegs ≤ c.dst.toNat)
    || (c.keepOp &&& opcodeOf c.instruction != 0)

/-- The clock edge with reset released. -/
def run (c : Cpu) (w : Wires) : Cpu :=
  if c.halt then { c with stateNext := .halt }
  else if c.rejects then c.fault
  else
    let n := { c with ticks := c.ticks + 1 }
    match c.stateNext with
    | .opFetch => c.opFetch n w
    | .opFetchDelay => c.opFetchDelay n w
    | .decode => c.decode n w
    | .dataFetch => n.dataFetch w
    | .divPending => c.divPending n w
    | .callPending => c.callPending n w
    | .halt => n

end Cpu

end VeBpf
