import VeBpf.Core.System

/-!
# One word at a time

What the core is for: a machine that takes the program word at its instruction
pointer and carries it out in one go. It has no clock, no fetch stage and no
handshakes. The operand and result tables are those of `VeBpf.Core.Cpu`; what a
table entry *does* is stated here over numbers and byte arrays, not over the
units that compute it.

An `LDDW` is two words. After the first the machine remembers the destination in
`upper`, and the next word is read as the upper half.
-/

namespace VeBpf

open ByteMem

/-! ## The call extensions -/

/-- What a `CALL` can see and change: the store, and the two flags the handler
leaves behind between calls. -/
structure CallStore where
  words : Ram64V1
  writeEnable : Bool
  pause : Bool
  ret : BitVec 64

namespace CallStore

/-- The store once the word that a set write enable lets through has landed. -/
def written (st : CallStore) (r1 r2 : BitVec 64) : CallStore :=
  { st with words := st.words.step false (CallHandler.slot r1) r2 st.writeEnable }

/-- The ids the handler knows. -/
def known (func : BitVec 64) : Bool :=
  func = CallHandler.funcLed || func = CallHandler.funcStore || func = CallHandler.funcLoad

/-- The outcome of a whole call. A store leaves the write enable set, so the call after it
writes as well; a load that finds `pause` set reads before that write. -/
def call (st : CallStore) (func r1 r2 : BitVec 64) : CallStore :=
  if func = CallHandler.funcStore then
    { { st with writeEnable := true }.written r1 r2 with pause := false }
  else
    let after := st.written r1 r2
    if func = CallHandler.funcLoad then
      { after with pause := true
                   ret := (if st.pause then st else after).words.dataOut (CallHandler.slot r1) }
    else after

end CallStore

/-! ## The machine -/

/-- The state between two program words. -/
structure Machine where
  ip : BitVec 10
  regs : Regs
  mem : BitVec 11 → BitVec 8
  store : CallStore
  /-- The destination of an `LDDW` whose second word comes next. -/
  upper : Option (BitVec 4)
  halt : Bool
  error : Bool

/-- What a shift delivers. -/
def ShiftRequest.result (q : ShiftRequest) : BitVec 64 :=
  if q.left then q.value <<< q.shift.toNat
  else if q.arith then q.value.sshiftRight q.shift.toNat
  else q.value >>> q.shift.toNat

/-- What a division by a non-zero divisor delivers. -/
def DivRequest.result (q : DivRequest) : BitVec 64 :=
  if q.wantsRemainder then q.dividend % q.divisor else q.dividend / q.divisor

/-- How many bytes an `LDX` opcode loads. -/
def loadWidth (op : BitVec 8) : Option Nat :=
  if op = ebpfOpLdxb then some 1
  else if op = ebpfOpLdxh then some 2
  else if op = ebpfOpLdxw then some 4
  else if op = ebpfOpLdxdw then some 8
  else none

namespace Machine

/-- The word names a register that does not exist, or an `LDDW` lacks its second half. -/
def rejects (m : Machine) (w : BitVec 64) : Bool :=
  match m.upper with
  | none => decide (maxRegs ≤ (srcOf w).toNat) || decide (maxRegs ≤ (dstOf w).toNat)
  | some _ => decide (maxRegs ≤ (srcOf w).toNat) || (ebpfOpLddw &&& opcodeOf w != 0)

def fail (m : Machine) : Machine := { m with halt := true, error := true }

def next (m : Machine) : Machine := { m with ip := m.ip + 1 }

/-- `regs[dst] = v` and on to the next word. -/
def set (m : Machine) (dst : BitVec 4) (v : BitVec 64) : Machine :=
  { m with regs := m.regs.write dst v }.next

/-- `regs[base] + offset` as a data address. -/
def dataAddress (base : BitVec 64) (offset : BitVec 16) : BitVec 11 :=
  (base + offset.setWidth 64).setWidth 11

/-- The address of the load in a word. -/
def loadAddress (m : Machine) (w : BitVec 64) : BitVec 11 :=
  dataAddress (m.regs.read (srcOf w)) (offsetOf w)

/-- The address of the store in a word. -/
def storeAddress (m : Machine) (w : BitVec 64) : BitVec 11 :=
  dataAddress (m.regs.read (dstOf w)) (offsetOf w)

def load (m : Machine) (w : BitVec 64) : Machine :=
  match loadWidth (opcodeOf w) with
  | some n => m.set (dstOf w) (loadLE 64 m.mem (m.loadAddress w) n)
  | none => m.fail

def storeTo (m : Machine) (w : BitVec 64) (arm : Option (BitVec 4 × BitVec 64)) : Machine :=
  match arm with
  | some (ww, v) =>
      { m with mem := storeLE m.mem (m.storeAddress w) v ww.toNat }.next
  | none => m.fail

def arith (m : Machine) (w : BitVec 64) (div : Option DivRequest) (shift : Option ShiftRequest)
    (keep : BitVec 64 → BitVec 64) (res : Option (BitVec 64)) : Machine :=
  match div, shift with
  | some q, _ =>
      if q.divisor = 0 then
        (if q.wantsRemainder then m else { m with regs := m.regs.write (dstOf w) 0 }).fail
      else m.set (dstOf w) q.result
  | none, some q => m.set (dstOf w) (keep q.result)
  | none, none =>
      match res with
      | some v => m.set (dstOf w) v
      | none => m.fail

def callOut (m : Machine) (w : BitVec 64) : Machine :=
  let func := (immediateOf w).setWidth 64
  let st := m.store.call func (m.regs.read 1) (m.regs.read 2)
  if CallStore.known func then { m with store := st }.set 0 st.ret
  else { m with store := st }.fail

/-- Where a taken jump goes. -/
def target (m : Machine) (w : BitVec 64) : BitVec 10 :=
  ((m.ip + 1).setWidth 16 + offsetOf w).setWidth 10

def jump (m : Machine) (w : BitVec 64) : Machine :=
  if opcodeOf w = ebpfOpCall then m.callOut w
  else if opcodeOf w = ebpfOpExit then { m with halt := true }
  else
    match jmpArm (opcodeOf w) (m.regs.read (dstOf w)) (m.regs.read (srcOf w)) (immediateOf w) with
    | some true => { m with ip := m.target w }
    | some false => m.next
    | none => m.fail

/-- The upper half of an `LDDW`. -/
def joinUpper (m : Machine) (d : BitVec 4) (w : BitVec 64) : Machine :=
  { m with upper := none }.set d (immediateOf w ++ (m.regs.read d).extractLsb' 0 32)

/-- An accepted word that starts an instruction. -/
def dispatch (m : Machine) (w : BitVec 64) : Machine :=
  let op := opcodeOf w
  let d := m.regs.read (dstOf w)
  let s := m.regs.read (srcOf w)
  let imm := immediateOf w
  let cls := opclassOf op
  if cls = opcLd then
    if op = ebpfOpLddw then
      { m with upper := some (dstOf w) }.set (dstOf w) (imm.setWidth 64)
    else m.fail
  else if cls = opcLdx then m.load w
  else if cls = opcSt then m.storeTo w (stArm op imm)
  else if cls = opcStx then m.storeTo w (stxArm op s)
  else if cls = opcAlu then
    m.arith w (aluDiv32 op d s imm) (aluShift32 op d s imm .decode) low32 (aluDefault32 op d s imm)
  else if cls = opcJmp then m.jump w
  else if cls = opcRes then m.fail
  else
    m.arith w (aluDiv64 op d s imm) (aluShift64 op d s imm .decode) id (aluDefault64 op d s imm)

/-- One program word. A halted machine stays as it is. -/
def exec (m : Machine) (w : BitVec 64) : Machine :=
  if m.halt then m
  else if m.rejects w then m.fail
  else
    match m.upper with
    | some d => m.joinUpper d w
    | none => m.dispatch w

end Machine

end VeBpf
