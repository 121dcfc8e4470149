import VeBpf.Lib.ByteMem

/-!
# The data memory, `ram_module_v3.v`

A byte-wide memory behind a state machine that moves one byte per clock. A write
takes its bytes from `dat_w0` one after the other and counts with `wcnt` up to
`ww`; a read always collects eight bytes and offers them at four widths.

`memadr` is left out: nothing reads it.
-/

namespace VeBpf

open ByteMem

/-- The registers of `ram_module_v3`, for `ADDRESS_SIZE = 11`. -/
structure RamModule where
  ack : Bool
  datR0 : BitVec 8
  datR2 : BitVec 16
  datR4 : BitVec 32
  datR8 : BitVec 64
  wcnt : BitVec 4
  wait1 : BitVec 2
  adr0 : BitVec 11
  datR1 : BitVec 8
  we1 : Bool
  writeCompleteFlag : Bool
  datW1 : BitVec 8
  addrT : BitVec 11
  mem : BitVec 11 → BitVec 8

namespace RamModule

/-- What the `rst` branch of the state machine loads. -/
def reset (r : RamModule) : RamModule :=
  { r with ack := false, datR0 := 0, datR2 := 0, datR4 := 0, datR8 := 0, wcnt := 0, wait1 := 0,
           adr0 := 0, we1 := false, datW1 := 0, addrT := 0, writeCompleteFlag := false }

/-- `case (wcnt)` of the writing machine: the byte that goes out next. -/
def writeByte (r : RamModule) (datW0 : BitVec 64) : BitVec 8 :=
  if r.wcnt = 1 then getByte datW0 0
  else if r.wcnt = 2 then getByte datW0 1
  else if r.wcnt = 3 then getByte datW0 2
  else if r.wcnt = 4 then getByte datW0 3
  else if r.wcnt = 5 then getByte datW0 4
  else if r.wcnt = 6 then getByte datW0 5
  else if r.wcnt = 7 then getByte datW0 6
  else if r.wcnt = 8 then getByte datW0 7
  else r.datW1

/-- `case (wcnt)` of the reading machine: where the byte just fetched goes. -/
def readByte (r : RamModule) : RamModule :=
  if r.wcnt = 1 then
    { r with datR0 := r.datR1, datR2 := r.datR1.setWidth 16, datR4 := r.datR1.setWidth 32,
             datR8 := r.datR1.setWidth 64 }
  else if r.wcnt = 2 then
    { r with datR2 := putByte r.datR2 1 r.datR1, datR4 := putByte r.datR4 1 r.datR1,
             datR8 := putByte r.datR8 1 r.datR1 }
  else if r.wcnt = 3 then
    { r with datR4 := putByte r.datR4 2 r.datR1, datR8 := putByte r.datR8 2 r.datR1 }
  else if r.wcnt = 4 then
    { r with datR4 := putByte r.datR4 3 r.datR1, datR8 := putByte r.datR8 3 r.datR1 }
  else if r.wcnt = 5 then { r with datR8 := putByte r.datR8 4 r.datR1 }
  else if r.wcnt = 6 then { r with datR8 := putByte r.datR8 5 r.datR1 }
  else if r.wcnt = 7 then { r with datR8 := putByte r.datR8 6 r.datR1 }
  else if r.wcnt = 8 then { r with datR8 := putByte r.datR8 7 r.datR1 }
  else r

/-- The writing machine: `we0` is high and the write is not complete. -/
def writing (r : RamModule) (adr1 : BitVec 11) (ww : BitVec 4) (datW0 : BitVec 64) : RamModule :=
  if r.wcnt = 0 then { r with wcnt := 1, addrT := adr1 }
  else
    let n := { r with adr0 := r.addrT, we1 := true, datW1 := r.writeByte datW0 }
    -- `adr0` and `we1` write the byte at the next edge, after the acknowledge for the last one
    if ww ≠ r.wcnt then
      { n with addrT := r.addrT + 1, wcnt := r.wcnt + 1, writeCompleteFlag := false }
    else { n with wcnt := 0, writeCompleteFlag := true, ack := true }

/-- The reading machine, which is also where a completed write waits for `stb` to drop. -/
def reading (r : RamModule) (adr1 : BitVec 11) : RamModule :=
  let n := { r with we1 := false, adr0 := adr1 }
  if !r.ack then
    -- the address goes out first, and its byte comes back two edges later
    if r.wcnt = 0 then { n with wcnt := 1, wait1 := 1 }
    else if r.wait1 ≠ 0 then { n with wait1 := 0, adr0 := r.adr0 + 1 }
    else
      let n := n.readByte
      if r.wcnt ≠ 8 then { n with adr0 := r.adr0 + 1, wcnt := r.wcnt + 1 }
      else { n with ack := true }
  else n

/-- The state machine: everything but `mem` and `dat_r1`. -/
def fsm (r : RamModule) (stb : Bool) (adr1 : BitVec 11) (we0 : Bool) (ww : BitVec 4)
    (datW0 : BitVec 64) : RamModule :=
  if stb then
    if we0 && !r.writeCompleteFlag then r.writing adr1 ww datW0 else r.reading adr1
  else { r with ack := false, wait1 := 1, wcnt := 0, writeCompleteFlag := false }

/-- The bytes once the one on the internal write port has landed. -/
def settled (r : RamModule) : BitVec 11 → BitVec 8 :=
  if r.we1 then Function.update r.mem r.adr0 r.datW1 else r.mem

/-- The registers after a clock edge. A read returns what was stored before the edge. -/
def step (r : RamModule) (rst stb : Bool) (adr1 : BitVec 11) (we0 : Bool) (ww : BitVec 4)
    (datW0 : BitVec 64) : RamModule :=
  if rst then r.reset
  else
    { r.fsm stb adr1 we0 ww datW0 with mem := r.settled, datR1 := r.mem r.adr0 }

/-- What the input ports carry at a clock edge, `rst` apart. -/
structure Ports where
  stb : Bool
  adr1 : BitVec 11
  we0 : Bool
  ww : BitVec 4
  datW0 : BitVec 64

end RamModule

end VeBpf
