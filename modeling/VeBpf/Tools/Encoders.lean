import VeBpf.Core.Params
import VeBpf.Lib.Framing
import VeBpf.Lib.HexText

/-!
# From an instruction to the program memory

The way of a program: `assembler.py` packs the instructions, `dump.py` prints them,
`combined_compile.sh` puts the rules of a firewall into one file with control words
between them, and `load_and_simGen_VeBPF_hex.py` reads that file and either writes
the simulation file or sends the words over the serial line. `test_cpu.py` does
without the files and writes the packed bytes to the memory itself.

Text is a list of characters. A step that raises an exception is `none`.
-/

namespace VeBpf

open ByteMem HexText

/-! ## `assembler.py` -/

/-- The fields of an instruction, or of the second slot of an `LDDW`. -/
structure Insn where
  opcode : BitVec 8
  dst : BitVec 4
  src : BitVec 4
  offset : BitVec 16
  imm : BitVec 32
  deriving DecidableEq, Repr

/-- `pack`: the struct `BBHI`, with `dst | (src << 4)` as its second byte. -/
def Insn.pack (i : Insn) : List (BitVec 8) :=
  [i.opcode, i.src ++ i.dst, getByte i.offset 0, getByte i.offset 1,
    getByte i.imm 0, getByte i.imm 1, getByte i.imm 2, getByte i.imm 3]

/-- The bytes of the instructions one after the other, as `assemble` joins them. Its parser and
`assemble_one`, which make the fields from the text, are not modelled. -/
def assemble (insts : List Insn) : List (BitVec 8) := insts.flatMap Insn.pack

/-- The opcodes that have an arm in `cpu.v`. -/
def supportedOpcodes : List (BitVec 8) :=
  [ebpfOpAddImm, ebpfOpAddReg, ebpfOpSubImm, ebpfOpSubReg, ebpfOpMulImm, ebpfOpMulReg,
    ebpfOpDivImm, ebpfOpDivReg, ebpfOpOrImm, ebpfOpOrReg, ebpfOpAndImm, ebpfOpAndReg,
    ebpfOpLshImm, ebpfOpLshReg, ebpfOpRshImm, ebpfOpRshReg, ebpfOpNeg, ebpfOpModImm,
    ebpfOpModReg, ebpfOpXorImm, ebpfOpXorReg, ebpfOpMovImm, ebpfOpMovReg, ebpfOpArshImm,
    ebpfOpArshReg, ebpfOpLe, ebpfOpBe,
    ebpfOpAdd64Imm, ebpfOpAdd64Reg, ebpfOpSub64Imm, ebpfOpSub64Reg, ebpfOpMul64Imm,
    ebpfOpMul64Reg, ebpfOpDiv64Imm, ebpfOpDiv64Reg, ebpfOpOr64Imm, ebpfOpOr64Reg,
    ebpfOpAnd64Imm, ebpfOpAnd64Reg, ebpfOpLsh64Imm, ebpfOpLsh64Reg, ebpfOpRsh64Imm,
    ebpfOpRsh64Reg, ebpfOpNeg64, ebpfOpMod64Imm, ebpfOpMod64Reg, ebpfOpXor64Imm,
    ebpfOpXor64Reg, ebpfOpMov64Imm, ebpfOpMov64Reg, ebpfOpArsh64Imm, ebpfOpArsh64Reg,
    ebpfOpLdxw, ebpfOpLdxh, ebpfOpLdxb, ebpfOpLdxdw, ebpfOpStw, ebpfOpSth, ebpfOpStb,
    ebpfOpStdw, ebpfOpStxw, ebpfOpStxh, ebpfOpStxb, ebpfOpStxdw, ebpfOpLddw,
    ebpfOpJa, ebpfOpJeqImm, ebpfOpJeqReg, ebpfOpJgtImm, ebpfOpJgtReg, ebpfOpJgeImm,
    ebpfOpJgeReg, ebpfOpJsetImm, ebpfOpJsetReg, ebpfOpJneImm, ebpfOpJneReg, ebpfOpJsgtImm,
    ebpfOpJsgtReg, ebpfOpJsgeImm, ebpfOpJsgeReg, ebpfOpCall, ebpfOpExit, ebpfOpJltImm,
    ebpfOpJltReg, ebpfOpJleImm, ebpfOpJleReg, ebpfOpJsltImm, ebpfOpJsltReg, ebpfOpJsleImm,
    ebpfOpJsleReg]

/-- An instruction of the core, or the second slot of an `LDDW`. -/
def Insn.Supported (i : Insn) : Prop := i.opcode ∈ supportedOpcodes ∨ i.opcode = 0

instance (i : Insn) : Decidable i.Supported := inferInstanceAs (Decidable (_ ∨ _))

/-! ## `dump.py` -/

/-- `struct.unpack('>nQ', df)`. -/
def unpackQ : List (BitVec 8) → List (BitVec 64)
  | b₇ :: b₆ :: b₅ :: b₄ :: b₃ :: b₂ :: b₁ :: b₀ :: df =>
      wordBE [b₇, b₆, b₅, b₄, b₃, b₂, b₁, b₀] :: unpackQ df
  | _ => []

/-- `'{:016x}'.format(i)`. -/
def format016x (w : BitVec 64) : List Char := hexBytes (bytesBE w)

/-- `print('0x{:016x}'.format(i))`. -/
def printWord (w : BitVec 64) : List Char := '0' :: 'x' :: format016x w ++ ['\n']

/-- A file that is no whole number of words raises before anything is printed. -/
def dump (df : List (BitVec 8)) : List Char :=
  if df.length % 8 = 0 then (unpackQ df).flatMap printWord else []

/-! ## `combined_compile.sh` -/

/-- `ffffffffffffffff`. -/
def startRule : List Char := List.replicate 16 'f'

/-- `ffffffffffffff0f`. -/
def endRule : List Char := List.replicate 14 'f' ++ ['0', 'f']

/-- `fffffffffffffff0`. -/
def endAllRules : List Char := List.replicate 15 'f' ++ ['0']

/-- `echo "0x..."`. -/
def echo (word : List Char) : List Char := '0' :: 'x' :: word ++ ['\n']

/-- The loop over the rules; the list is what `total_eBPF_rules` counts down. -/
def combineRules : List (List (BitVec 8)) → List Char
  | [] => []
  | bin :: bins =>
      dump bin ++ (if bins ≠ [] then echo endRule ++ echo startRule else echo endAllRules)
        ++ combineRules bins

/-- `combined_hex.hex`. Without a rule the script exits before it writes anything. -/
def combinedCompile (bins : List (List (BitVec 8))) : Option (List Char) :=
  if bins = [] then none else some (echo startRule ++ combineRules bins)

/-! ## `load_and_simGen_VeBPF_hex.py` -/

/-- `for line in file`: each line with its newline. -/
def fileLines : List Char → List (List Char)
  | [] => []
  | c :: cs =>
      if c = '\n' then ['\n'] :: fileLines cs
      else
        match fileLines cs with
        | [] => [[c]]
        | l :: ls => (c :: l) :: ls

/-- `line.split('x')[1]`, then `split('\n')[0]`. -/
def readLine (line : List Char) : Option (List Char) := do
  let programData ← (line.splitOn 'x')[1]?
  (programData.splitOn '\n')[0]?

/-- The list `program`. -/
def readProgram (text : List Char) : Option (List (List Char)) := (fileLines text).mapM readLine

/-- `word[i:j]`. -/
def slice (word : List Char) (i j : Nat) : List Char := (word.drop i).take (j - i)

/-- The word is none of the three control words. -/
def isInstruction (word : List Char) : Bool :=
  word != startRule && word != endRule && word != endAllRules

/-- One word in the simulation file. -/
def simWord (word : List Char) : List Char :=
  if isInstruction word then
    slice word 0 4 ++ slice word 6 8 ++ slice word 4 6 ++ slice word 14 16 ++ slice word 12 14
      ++ slice word 10 12 ++ slice word 8 10 ++ ['\n']
  else if word != endAllRules then word ++ ['\n']
  else word

/-- `sim_combined_hex.hex`, version 2 of the loader. -/
def simGen (program : List (List Char)) : List Char := program.flatMap simWord

/-- `(x >> k) & 255`. -/
def byteAt (x k : Nat) : BitVec 8 := BitVec.ofNat 8 ((x >>> k) &&& 255)

/-- The ten bytes that are sent for one word: the address and then the word. -/
def uploadWord (address : Nat) (word : List Char) : Option (List (BitVec 8)) := do
  let x ← parseHex word
  let data :=
    if isInstruction word then
      [byteAt x 24, byteAt x 16, byteAt x 8, byteAt x 0, byteAt x 40, byteAt x 32, byteAt x 48,
        byteAt x 56]
    else
      [byteAt x 0, byteAt x 8, byteAt x 16, byteAt x 24, byteAt x 32, byteAt x 40, byteAt x 48,
        byteAt x 56]
  return byteAt address 0 :: byteAt address 8 :: data

/-- The words from address `i` on. -/
def uploadFrom (i : Nat) : List (List Char) → Option (List (BitVec 8))
  | [] => some []
  | word :: program => do
      let sent ← uploadWord i word
      let rest ← uploadFrom (i + 1) program
      return sent ++ rest

/-- What goes over the serial line, version 2 of the loader. -/
def upload (program : List (List Char)) : Option (List (BitVec 8)) := uploadFrom 0 program

/-- What the receiver makes of it: two bytes of address and eight of data, each low byte first. -/
def programLoader : List (BitVec 8) → List (BitVec 16 × BitVec 64)
  | a₀ :: a₁ :: d₀ :: d₁ :: d₂ :: d₃ :: d₄ :: d₅ :: d₆ :: d₇ :: sent =>
      (a₁ ++ a₀, wordBE [d₇, d₆, d₅, d₄, d₃, d₂, d₁, d₀]) :: programLoader sent
  | _ => []

/-! ## `test_cpu.py` -/

/-- `pgm_LE_DW_list_VerilgEbpf`, each entry as it is written to `pgm.mem`. -/
def checkDatafile : List (BitVec 8) → List (BitVec 64)
  | b₀ :: b₁ :: b₂ :: b₃ :: b₄ :: b₅ :: b₆ :: b₇ :: code =>
      wordBE [b₀, b₁, b₃, b₂, b₇, b₆, b₅, b₄] :: checkDatafile code
  | _ => []

end VeBpf
