import Mathlib.Logic.Function.Basic

/-!
# The units around the core

`divider.v`, `shifter.v`, `ram64_memory_v3.v`, `ram64_memory_v1.v` and
`call_handler.v`. Each is a record of its registers and a function from the
registers and inputs before a clock edge to the registers after it. Outputs that
the source drives with `assign` are functions of the record.

Registers are two-valued: where the source would hold `x`, a theorem quantifies
over the value.
-/

namespace VeBpf

/-! ## `divider.v` -/

/-- The registers of `divider`, for `data_width = w`. -/
structure Divider (w : Nat) where
  qr : BitVec (w + w)
  counter : BitVec (w + 1)
  divisorR : BitVec w
  err : Bool

namespace Divider

variable {w : Nat}

/-- `qr[2*data_width-1:data_width-1] - divisor_r`. -/
def diff (d : Divider w) : BitVec (w + 1) :=
  d.qr.extractLsb' (w - 1) (w + 1) - d.divisorR.setWidth (w + 1)

def quotient (d : Divider w) : BitVec w := d.qr.extractLsb' 0 w

def remainder (d : Divider w) : BitVec w := d.qr.extractLsb' w w

def ack (d : Divider w) : Bool := d.counter == 0#(w + 1)

/-- The registers after a clock edge. -/
def step (d : Divider w) (resetN : Bool) (dividend divisor : BitVec w) (stb : Bool) :
    Divider w :=
  if !resetN then
    { counter := BitVec.allOnes (w + 1), qr := 0, err := false, divisorR := 0 }
  else if stb then
    if divisor = 0#w then
      { d with counter := 0, qr := 0, err := true }
    else
      { counter := BitVec.ofNat (w + 1) w, qr := dividend.setWidth (w + w),
        divisorR := divisor, err := false }
  else if !(d.counter == 0#(w + 1)) then
    -- the sign of the trial subtraction decides the next bit of the quotient
    if d.diff.getLsbD w then
      { d with qr := d.qr <<< 1, counter := d.counter - 1 }
    else
      { d with qr := d.diff.setWidth w ++ (d.qr.setWidth w <<< 1 ||| 1#w),
               counter := d.counter - 1 }
  else d

/-- What the input ports carry at a clock edge. -/
structure Ports (w : Nat) where
  resetN : Bool
  dividend : BitVec w
  divisor : BitVec w
  stb : Bool

/-- The registers after `t` clock edges. -/
def run (inp : Nat → Ports w) (d : Divider w) : Nat → Divider w
  | 0 => d
  | t + 1 => (run inp d t).step (inp t).resetN (inp t).dividend (inp t).divisor (inp t).stb

end Divider

/-! ## `shifter.v` -/

/-- The registers of `shifter`, for `data_width = w`. -/
structure Shifter (w : Nat) where
  out : BitVec w
  ack : Bool
  state : Bool
  tmp1 : BitVec w
  tmp2 : BitVec w

namespace Shifter

variable {w : Nat}

/-- The registers after a clock edge. -/
def step (s : Shifter w) (rst stb arith left : Bool) (value shift : BitVec w) : Shifter w :=
  if rst then
    { ack := false, out := 0, state := false, tmp1 := 0, tmp2 := 0 }
  else if s.ack then
    { s with ack := false, state := false }
  else if s.state then
    { s with out := if !left && arith && value.msb then s.tmp1 ||| s.tmp2 else s.tmp2,
             ack := true }
  else if stb then
    if !left then
      -- `tmp1` is the sign, for the bits that the logical shift leaves empty
      { s with tmp1 := ~~~(BitVec.allOnes w >>> shift.toNat), tmp2 := value >>> shift.toNat,
               state := true }
    else
      { s with tmp2 := value <<< shift.toNat, state := true }
  else s

end Shifter

/-! ## `ram64_memory_v3.v` -/

/-- The registers of `ram64_memory_v3`, for `DATA_SIZE = 64` and `ADDRESS_SIZE = a`. -/
structure Ram64V3 (a : Nat) where
  mem : BitVec a → BitVec 64
  dataOut : BitVec 64

/-- The registers after a clock edge. A read returns what was stored before the edge. -/
def Ram64V3.step {a : Nat} (r : Ram64V3 a) (rst : Bool) (wrAddress rdAddress : BitVec a)
    (dataIn : BitVec 64) (writeEnable rdEnable : Bool) : Ram64V3 a :=
  if rst then r
  else
    { mem := if writeEnable then Function.update r.mem wrAddress dataIn else r.mem
      dataOut := if rdEnable then r.mem rdAddress else r.dataOut }

/-! ## `ram64_memory_v1.v` -/

/-- The store behind the call handler: `MEMORY_DEPTH = 20` words under a 5-bit address. -/
structure Ram64V1 where
  mem : Vector (BitVec 64) 20
  /-- What an address past the depth reads as. The source gives `x` there; no write reaches it. -/
  past : BitVec 5 → BitVec 64

namespace Ram64V1

def dataOut (r : Ram64V1) (address : BitVec 5) : BitVec 64 :=
  r.mem[address.toNat]?.getD (r.past address)

/-- The words after a clock edge. -/
def step (r : Ram64V1) (rst : Bool) (address : BitVec 5) (dataIn : BitVec 64)
    (writeEnable : Bool) : Ram64V1 :=
  if rst then r
  else if writeEnable then { r with mem := r.mem.setIfInBounds address.toNat dataIn }
  else r

end Ram64V1

/-! ## `call_handler.v` -/

/-- The registers of `call_handler`. -/
structure CallHandler where
  ret : BitVec 64
  ip4Led : Bool
  ipv6Led : Bool
  pktErrLed : Bool
  ack : Bool
  err : Bool
  writeEnable : Bool
  pause : Bool
  callHandlerMem : Ram64V1

namespace CallHandler

/-- Function id of the LED extension. -/
def funcLed : BitVec 64 := 0xff000001#64
/-- Function id of the extension that stores a value. -/
def funcStore : BitVec 64 := 0xff000002#64
/-- Function id of the extension that loads a value. -/
def funcLoad : BitVec 64 := 0xff000003#64

/-- `address[4:0]`, where `address = r1`. -/
def slot (r1 : BitVec 64) : BitVec 5 := r1.setWidth 5

/-- The registers after a clock edge. -/
def step (h : CallHandler) (rst : Bool) (func : BitVec 64) (stb : Bool) (r1 r2 : BitVec 64) :
    CallHandler :=
  let mem := h.callHandlerMem.step rst (slot r1) r2 h.writeEnable
  let dataR := h.callHandlerMem.dataOut (slot r1)
  if rst then
    { ret := 0, ack := false, err := false, ip4Led := false, ipv6Led := false,
      pktErrLed := false, writeEnable := false, pause := false, callHandlerMem := mem }
  else if stb then
    if func = funcLed then
      { h with ip4Led := r1.getLsbD 0, ipv6Led := r1.getLsbD 1, pktErrLed := r1.getLsbD 2,
               ack := true, callHandlerMem := mem }
    else if func = funcStore then
      -- three cycles: raise the write enable, wait, lower it and acknowledge
      if !h.writeEnable then { h with writeEnable := true, callHandlerMem := mem }
      else if !h.pause then { h with pause := true, callHandlerMem := mem }
      else { h with pause := false, writeEnable := false, ack := true, callHandlerMem := mem }
    else if func = funcLoad then
      if !h.pause then { h with pause := true, callHandlerMem := mem }
      else { h with ret := dataR, pause := false, ack := true, callHandlerMem := mem }
    else { h with err := true, ack := true, callHandlerMem := mem }
  else { h with ack := false, err := false, callHandlerMem := mem }

end CallHandler

end VeBpf
