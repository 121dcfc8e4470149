import VeBpf.Core.Cpu
import VeBpf.Core.Units
import VeBpf.Core.RamModule

/-!
# The whole design

`cpu.v` with its instances: program memory, data memory, shifter, divider and,
as under `VEBPF_SIM`, the call handler. One clock edge moves every register at
once, each from the values before the edge.
-/

namespace VeBpf

/-- The input ports of `cpu`. -/
structure Inputs where
  resetN : Bool
  csrCtl : BitVec 8
  r1 : BitVec 64
  r2 : BitVec 64
  r3 : BitVec 64
  r4 : BitVec 64
  r5 : BitVec 64
  dataMemWrite64bitInputPort : BitVec 64
  dataMemDataBytesWrittenWidthWwInputPort : BitVec 4
  dataMemWeInputPort : Bool
  dataMemAdrInputPort : BitVec 11
  dataMemStbInputPort : Bool
  vebpfProgAddrIn : BitVec 10
  vebpfProgDataIn : BitVec 64
  vebpfProgWriteEnableIn : Bool
  vebpfProgResetIn : Bool
  runNextSelectedRuleEn : Bool
  ipNextRule : BitVec 10

namespace Inputs

/-- `reset_n | csr_ctl[0]`. -/
def resetNInt (i : Inputs) : Bool := i.resetN || i.csrCtl.getLsbD 0

/-- `csr_ctl[1]`: the host holds the data memory. -/
def csrCtl1 (i : Inputs) : Bool := i.csrCtl.getLsbD 1

/-- Every port low but for the reset. -/
def still (resetN : Bool) : Inputs where
  resetN := resetN
  csrCtl := 0
  r1 := 0
  r2 := 0
  r3 := 0
  r4 := 0
  r5 := 0
  dataMemWrite64bitInputPort := 0
  dataMemDataBytesWrittenWidthWwInputPort := 0
  dataMemWeInputPort := false
  dataMemAdrInputPort := 0
  dataMemStbInputPort := false
  vebpfProgAddrIn := 0
  vebpfProgDataIn := 0
  vebpfProgWriteEnableIn := false
  vebpfProgResetIn := false
  runNextSelectedRuleEn := false
  ipNextRule := 0

/-- A reset edge with the rule at `e` selected and every other port low. -/
def selecting (e : BitVec 10) : Inputs :=
  { still false with runNextSelectedRuleEn := true, ipNextRule := e }

@[simp] theorem still_resetNInt (resetN : Bool) : (still resetN).resetNInt = resetN := by
  simp [still, resetNInt]

@[simp] theorem still_csrCtl1 (resetN : Bool) : (still resetN).csrCtl1 = false := by
  simp [still, csrCtl1]

@[simp] theorem selecting_resetNInt (e : BitVec 10) : (selecting e).resetNInt = false := by
  simp [selecting, still, resetNInt]

@[simp] theorem selecting_csrCtl1 (e : BitVec 10) : (selecting e).csrCtl1 = false := by
  simp [selecting, still, csrCtl1]

end Inputs

/-- All registers of the design. -/
structure Sys where
  cpu : Cpu
  pgm : Ram64V3 9
  dataMem : RamModule
  arsh64 : Shifter 64
  div64 : Divider 64
  callHandler : CallHandler

/-- The reset branch of the core. -/
def Cpu.reset (c : Cpu) (i : Inputs) (w : Wires) : Cpu :=
  { c with
    ticks := 0, error := false, halt := false
    ipNext := if i.runNextSelectedRuleEn then i.ipNextRule else 0
    ip := if i.runNextSelectedRuleEn then i.ipNextRule else 0
    instruction := w.pgmDatR
    stateNext := .opFetch, stateNextTemp := .opFetch
    keepOp := 0, keepDst := 0
    regs := #v[0, i.r1, i.r2, i.r3, i.r4, i.r5, 0, 0, 0, 0, 0]
    dataWw := 0, cpuDataAck := false, cpuDiv64Ack := false
    dataStb := false, dataAdr := 0, dataWe := false, dataDatW := 0
    arsh64Stb := false, arsh64Arith := false, arsh64Left := false
    arsh64Value := 0, arsh64Shift := 0
    div64Dividend := 0, div64Divisor := 0, div64Stb := false
    callHandlerFunc := 0, callHandlerStb := false
    callHandlerR1 := 0, callHandlerR2 := 0, callHandlerR3 := 0
    callHandlerR4 := 0, callHandlerR5 := 0 }

/-- The core's clock edge. -/
def Cpu.step (c : Cpu) (i : Inputs) (w : Wires) : Cpu :=
  if !i.resetNInt then c.reset i w else c.run w

namespace Sys

/-- The outputs of the sub-modules as the core sees them; `csr_ctl[1]` masks the acknowledge. -/
def wires (s : Sys) (i : Inputs) : Wires where
  pgmDatR := s.pgm.dataOut
  dataAck := if !i.csrCtl1 then s.dataMem.ack else false
  dataDatR0 := s.dataMem.datR0
  dataDatR2 := s.dataMem.datR2
  dataDatR4 := s.dataMem.datR4
  dataDatR8 := s.dataMem.datR8
  arsh64Out := s.arsh64.out
  arsh64Ack := s.arsh64.ack
  div64Quotient := s.div64.quotient
  div64Remainder := s.div64.remainder
  div64Ack := s.div64.ack
  div64Err := s.div64.err
  callHandlerRet := s.callHandler.ret
  callHandlerAck := s.callHandler.ack
  callHandlerErr := s.callHandler.err

/-- `data_mem_ack_output_port`. -/
def dataMemAckOutputPort (s : Sys) (i : Inputs) : Bool :=
  if !i.csrCtl1 then false else s.dataMem.ack

/-- The data memory's clock edge. `csr_ctl[1]` switches its port between the core and the
host, and its reset is `(!reset_n_int) ^ csr_ctl[1]`. -/
def dataMemStep (s : Sys) (i : Inputs) : RamModule :=
  let own := !i.csrCtl1
  s.dataMem.step (!i.resetNInt ^^ i.csrCtl1)
    (if own then s.cpu.dataStb else i.dataMemStbInputPort)
    (if own then s.cpu.dataAdr else i.dataMemAdrInputPort)
    (if own then s.cpu.dataWe else i.dataMemWeInputPort)
    (if own then s.cpu.dataWw else i.dataMemDataBytesWrittenWidthWwInputPort)
    (if own then s.cpu.dataDatW else i.dataMemWrite64bitInputPort)

/-- One clock edge. The program memory sees the low nine bits of its two addresses. -/
def step (s : Sys) (i : Inputs) : Sys where
  cpu := s.cpu.step i (s.wires i)
  pgm := s.pgm.step i.vebpfProgResetIn (i.vebpfProgAddrIn.setWidth 9) (s.cpu.ipNext.setWidth 9)
    i.vebpfProgDataIn i.vebpfProgWriteEnableIn true
  dataMem := s.dataMemStep i
  arsh64 := s.arsh64.step (!i.resetNInt) s.cpu.arsh64Stb s.cpu.arsh64Arith s.cpu.arsh64Left
    s.cpu.arsh64Value s.cpu.arsh64Shift
  div64 := s.div64.step i.resetNInt s.cpu.div64Dividend s.cpu.div64Divisor s.cpu.div64Stb
  callHandler := s.callHandler.step (!i.resetNInt) s.cpu.callHandlerFunc s.cpu.callHandlerStb
    s.cpu.callHandlerR1 s.cpu.callHandlerR2

/-- All registers zero, over a program and a data memory. -/
def zero (pgm : BitVec 9 → BitVec 64) (mem : BitVec 11 → BitVec 8) : Sys where
  cpu :=
    { ticks := 0, error := false, halt := false, ipNext := 0, ip := 0, instruction := 0,
      stateNext := .opFetch, stateNextTemp := .opFetch, keepOp := 0, keepDst := 0,
      regs := Vector.replicate 11 0, cpuDataAck := false, cpuDiv64Ack := false, dataStb := false,
      dataAdr := 0, dataWe := false, dataWw := 0, dataDatW := 0, arsh64Stb := false,
      arsh64Arith := false, arsh64Left := false, arsh64Value := 0, arsh64Shift := 0,
      div64Dividend := 0, div64Divisor := 0, div64Stb := false, callHandlerFunc := 0,
      callHandlerStb := false, callHandlerR1 := 0, callHandlerR2 := 0, callHandlerR3 := 0,
      callHandlerR4 := 0, callHandlerR5 := 0 }
  pgm := { mem := pgm, dataOut := 0 }
  dataMem :=
    { ack := false, datR0 := 0, datR2 := 0, datR4 := 0, datR8 := 0, wcnt := 0, wait1 := 0,
      adr0 := 0, datR1 := 0, we1 := false, writeCompleteFlag := false, datW1 := 0, addrT := 0,
      mem := mem }
  arsh64 := { out := 0, ack := false, state := false, tmp1 := 0, tmp2 := 0 }
  div64 := { qr := 0, counter := 0, divisorR := 0, err := false }
  callHandler :=
    { ret := 0, ip4Led := false, ipv6Led := false, pktErrLed := false, ack := false, err := false,
      writeEnable := false, pause := false,
      callHandlerMem := { mem := Vector.replicate 20 0, past := fun _ => 0 } }

/-- The state after `t` clock edges under an input schedule. -/
def run (inp : Nat → Inputs) (s : Sys) : Nat → Sys
  | 0 => s
  | t + 1 => (run inp s t).step (inp t)

end Sys

end VeBpf
