import VeBpf.Lib.HexText

/-!
# Classic BPF, `rust-cbpf/cbpf`

The opcodes and the `Simple` interpreter. It has two 32-bit registers and sixteen
words of scratch memory, and reads the packet in network order.

Rust checks arithmetic for overflow in a debug build and panics; in a release build
the result wraps, and a shift uses the low five bits of its count. `checks` tells
the two builds apart. An index past the end of a slice panics in both.
-/

namespace VeBpf

namespace Cbpf

open HexText

/-! ## `opcode.rs` -/

def bpfLd : BitVec 16 := 0x00#16
def bpfLdx : BitVec 16 := 0x01#16
def bpfSt : BitVec 16 := 0x02#16
def bpfStx : BitVec 16 := 0x03#16
def bpfAlu : BitVec 16 := 0x04#16
def bpfJmp : BitVec 16 := 0x05#16
def bpfRet : BitVec 16 := 0x06#16
def bpfMisc : BitVec 16 := 0x07#16

def bpfW : BitVec 16 := 0x00#16
def bpfH : BitVec 16 := 0x08#16
def bpfB : BitVec 16 := 0x10#16

def bpfImm : BitVec 16 := 0x00#16
def bpfAbs : BitVec 16 := 0x20#16
def bpfInd : BitVec 16 := 0x40#16
def bpfMem : BitVec 16 := 0x60#16
def bpfLen : BitVec 16 := 0x80#16
def bpfMsh : BitVec 16 := 0xa0#16

def bpfAdd : BitVec 16 := 0x00#16
def bpfSub : BitVec 16 := 0x10#16
def bpfMul : BitVec 16 := 0x20#16
def bpfDiv : BitVec 16 := 0x30#16
def bpfOr : BitVec 16 := 0x40#16
def bpfAnd : BitVec 16 := 0x50#16
def bpfLsh : BitVec 16 := 0x60#16
def bpfRsh : BitVec 16 := 0x70#16
def bpfNeg : BitVec 16 := 0x80#16
def bpfMod : BitVec 16 := 0x90#16
def bpfXor : BitVec 16 := 0xa0#16

def bpfJa : BitVec 16 := 0x00#16
def bpfJeq : BitVec 16 := 0x10#16
def bpfJgt : BitVec 16 := 0x20#16
def bpfJge : BitVec 16 := 0x30#16
def bpfJset : BitVec 16 := 0x40#16

def bpfK : BitVec 16 := 0x00#16
def bpfX : BitVec 16 := 0x08#16
def bpfA : BitVec 16 := 0x10#16

def bpfTax : BitVec 16 := 0x00#16
def bpfTxa : BitVec 16 := 0x80#16

def bpfMemwords : Nat := 16

/-- A classic instruction. -/
structure BpfInsn where
  code : BitVec 16
  jt : BitVec 8
  jf : BitVec 8
  k : BitVec 32
  deriving DecidableEq, Repr

def bpfClass (code : BitVec 16) : BitVec 16 := code &&& 0x07#16
def bpfSize (code : BitVec 16) : BitVec 16 := code &&& 0x18#16
def bpfMode (code : BitVec 16) : BitVec 16 := code &&& 0xe0#16
def bpfOp (code : BitVec 16) : BitVec 16 := code &&& 0xf0#16
def bpfSrc (code : BitVec 16) : BitVec 16 := code &&& 0x08#16
def bpfRval (code : BitVec 16) : BitVec 16 := code &&& 0x18#16
def bpfMiscop (code : BitVec 16) : BitVec 16 := code &&& 0xf8#16

/-! ## Errors and panics -/

/-- `cbpf::Error`. -/
inductive Error where
  | invalidInstruction
  | invalidRval
  | invalidLdInstruction
  | invalidSrc
  | invalidJmpCondition
  | invalidAluOp
  | invalidMiscOp
  | divisionByZero
  | outOfRange
  | pcOutOfRange
  deriving DecidableEq, Repr

/-- A function returns an error, or the process panics. -/
inductive Fault where
  | error (e : Error)
  | panic
  deriving DecidableEq, Repr

/-- The result of an operation that may overflow. -/
def checked {α : Type} (checks overflow : Bool) (x : α) : Except Fault α :=
  if checks && overflow then .error .panic else .ok x

def addU32 (checks : Bool) (a b : BitVec 32) : Except Fault (BitVec 32) :=
  checked checks (decide (2 ^ 32 ≤ a.toNat + b.toNat)) (a + b)

def subU32 (checks : Bool) (a b : BitVec 32) : Except Fault (BitVec 32) :=
  checked checks (decide (a.toNat < b.toNat)) (a - b)

def mulU32 (checks : Bool) (a b : BitVec 32) : Except Fault (BitVec 32) :=
  checked checks (decide (2 ^ 32 ≤ a.toNat * b.toNat)) (a * b)

/-- `-(a as i32)`. -/
def negI32 (checks : Bool) (a : BitVec 32) : Except Fault (BitVec 32) :=
  checked checks (a == 0x80000000#32) (-a)

def shlU32 (checks : Bool) (a b : BitVec 32) : Except Fault (BitVec 32) :=
  checked checks (decide (32 ≤ b.toNat)) (a <<< (b.toNat % 32))

def shrU32 (checks : Bool) (a b : BitVec 32) : Except Fault (BitVec 32) :=
  checked checks (decide (32 ≤ b.toNat)) (a >>> (b.toNat % 32))

/-! ## `interpreter.rs` -/

/-- The variables of `Simple::run`. -/
structure State where
  a : BitVec 32
  x : BitVec 32
  mem : Vector (BitVec 32) 16
  pc : Nat

/-- One turn of the loop returns, or goes on with the next. -/
inductive Flow where
  | ret (v : BitVec 32)
  | next (s : State)

namespace Simple

def fail {α : Type} (e : Error) : Except Fault α := .error (.error e)

/-- `insn.k + { if n == BPF_IND { X } else { 0 } }`, as an index. -/
def index (checks : Bool) (insn : BpfInsn) (s : State) : Except Fault Nat := do
  let k ← addU32 checks insn.k (if bpfMode insn.code = bpfInd then s.x else 0)
  return k.toNat

/-- `BigEndian::read_u32(&data[k..])` and its likes for other widths. -/
def bigEndian (n : Nat) (data : List (BitVec 8)) (k : Nat) : BitVec 32 :=
  BitVec.ofNat 32 (beNat ((data.drop k).take n))

/-- The `BPF_ABS` and `BPF_IND` loads of `n` bytes. -/
def readPacket (checks : Bool) (n : Nat) (data : List (BitVec 8)) (insn : BpfInsn) (s : State) :
    Except Fault (BitVec 32) := do
  let k ← index checks insn s
  if data.length ≤ k ∨ data.length - k < n then fail .outOfRange
  else return bigEndian n data k

def ld (checks : Bool) (data : List (BitVec 8)) (insn : BpfInsn) (s : State) :
    Except Fault State :=
  let size := bpfSize insn.code
  let mode := bpfMode insn.code
  if size = bpfW ∧ (mode = bpfAbs ∨ mode = bpfInd) then do
    let v ← readPacket checks 4 data insn s
    return { s with a := v }
  else if size = bpfH ∧ (mode = bpfAbs ∨ mode = bpfInd) then do
    let v ← readPacket checks 2 data insn s
    return { s with a := v }
  else if size = bpfB ∧ (mode = bpfAbs ∨ mode = bpfInd) then do
    let v ← readPacket checks 1 data insn s
    return { s with a := v }
  else if size = bpfW ∧ mode = bpfLen then .ok { s with a := BitVec.ofNat 32 data.length }
  else if size = bpfW ∧ mode = bpfImm then .ok { s with a := insn.k }
  else if size = bpfW ∧ mode = bpfMem then
    match s.mem[insn.k.toNat]? with
    | none => fail .outOfRange
    | some v => .ok { s with a := v }
  else fail .invalidLdInstruction

/-- The range check of `BPF_MEM` is off by one here, so an index of 16 panics. -/
def ldx (data : List (BitVec 8)) (insn : BpfInsn) (s : State) : Except Fault State :=
  let size := bpfSize insn.code
  let mode := bpfMode insn.code
  if size = bpfW ∧ mode = bpfLen then .ok { s with x := BitVec.ofNat 32 data.length }
  else if size = bpfB ∧ mode = bpfMsh then
    match data[insn.k.toNat]? with
    | none => fail .outOfRange
    | some b => .ok { s with x := ((b &&& 0xf#8) <<< 2).setWidth 32 }
  else if size = bpfW ∧ mode = bpfImm then .ok { s with x := insn.k }
  else if size = bpfW ∧ mode = bpfMem then
    if bpfMemwords < insn.k.toNat then fail .outOfRange
    else
      match s.mem[insn.k.toNat]? with
      | none => .error .panic
      | some v => .ok { s with x := v }
  else fail .invalidLdInstruction

/-- `BPF_ST` and `BPF_STX`. -/
def store (v : BitVec 32) (insn : BpfInsn) (s : State) : Except Fault State :=
  if bpfMemwords ≤ insn.k.toNat then fail .outOfRange
  else .ok { s with mem := s.mem.setIfInBounds insn.k.toNat v }

/-- The second operand of a jump or of an arithmetic operation. -/
def source (insn : BpfInsn) (s : State) : Except Fault (BitVec 32) :=
  if bpfSrc insn.code = bpfK then .ok insn.k
  else if bpfSrc insn.code = bpfX then .ok s.x
  else fail .invalidSrc

def cond (op : BitVec 16) (a src : BitVec 32) : Except Fault Bool :=
  if op = bpfJgt then .ok (src.ult a)
  else if op = bpfJge then .ok (src.ule a)
  else if op = bpfJeq then .ok (a == src)
  else if op = bpfJset then .ok (a &&& src != 0)
  else fail .invalidJmpCondition

def jmp (insn : BpfInsn) (s : State) : Except Fault State :=
  if bpfOp insn.code = bpfJa then .ok { s with pc := s.pc + insn.k.toNat }
  else do
    let src ← source insn s
    let c ← cond (bpfOp insn.code) s.a src
    return { s with pc := s.pc + if c then insn.jt.toNat else insn.jf.toNat }

def arith (checks : Bool) (op : BitVec 16) (a src : BitVec 32) : Except Fault (BitVec 32) :=
  if op = bpfAdd then addU32 checks a src
  else if op = bpfSub then subU32 checks a src
  else if op = bpfMul then mulU32 checks a src
  else if op = bpfDiv then if src = 0 then fail .divisionByZero else .ok (a / src)
  else if op = bpfMod then if src = 0 then fail .divisionByZero else .ok (a % src)
  else if op = bpfAnd then .ok (a &&& src)
  else if op = bpfOr then .ok (a ||| src)
  else if op = bpfXor then .ok (a ^^^ src)
  else if op = bpfLsh then shlU32 checks a src
  else if op = bpfRsh then shrU32 checks a src
  else fail .invalidAluOp

def alu (checks : Bool) (insn : BpfInsn) (s : State) : Except Fault State :=
  if bpfOp insn.code = bpfNeg then do
    let v ← negI32 checks s.a
    return { s with a := v }
  else do
    let src ← source insn s
    let v ← arith checks (bpfOp insn.code) s.a src
    return { s with a := v }

def misc (insn : BpfInsn) (s : State) : Except Fault State :=
  if bpfMiscop insn.code = bpfTax then .ok { s with x := s.a }
  else if bpfMiscop insn.code = bpfTxa then .ok { s with a := s.x }
  else fail .invalidMiscOp

def ret (insn : BpfInsn) (s : State) : Except Fault (BitVec 32) :=
  if bpfRval insn.code = bpfA then .ok s.a
  else if bpfRval insn.code = bpfK then .ok insn.k
  else fail .invalidRval

/-- What an instruction other than `BPF_RET` does, before `pc += 1`. -/
def exec (checks : Bool) (data : List (BitVec 8)) (insn : BpfInsn) (s : State) :
    Except Fault State :=
  let cls := bpfClass insn.code
  if cls = bpfLd then ld checks data insn s
  else if cls = bpfLdx then ldx data insn s
  else if cls = bpfSt then store s.a insn s
  else if cls = bpfStx then store s.x insn s
  else if cls = bpfJmp then jmp insn s
  else if cls = bpfAlu then alu checks insn s
  else if cls = bpfMisc then misc insn s
  else fail .invalidInstruction

/-- One turn of the loop. -/
def step (checks : Bool) (insns : List BpfInsn) (data : List (BitVec 8)) (s : State) :
    Except Fault Flow :=
  match insns[s.pc]? with
  | none => fail .pcOutOfRange
  | some insn =>
      if bpfClass insn.code = bpfRet then do
        let v ← ret insn s
        return .ret v
      else do
        let s' ← exec checks data insn s
        return .next { s' with pc := s'.pc + 1 }

/-- The loop, for at most `fuel` turns; `none` when they do not suffice. -/
def loop (checks : Bool) (insns : List BpfInsn) (data : List (BitVec 8)) :
    Nat → State → Option (Except Fault (BitVec 32))
  | 0, _ => none
  | fuel + 1, s =>
      match step checks insns data s with
      | .error e => some (.error e)
      | .ok (.ret v) => some (.ok v)
      | .ok (.next s') => loop checks insns data fuel s'

/-- The variables at the head of the loop. -/
def start : State := ⟨0, 0, Vector.replicate 16 0, 0⟩

/-- `Simple::run`. The program counter only grows, so one turn for each instruction and one to find
the end suffice. -/
def run (checks : Bool) (insns : List BpfInsn) (data : List (BitVec 8)) :
    Option (Except Fault (BitVec 32)) :=
  if insns = [] then some (.ok (BitVec.allOnes 32))
  else loop checks insns data (insns.length + 1) start

end Simple

end Cbpf

end VeBpf
