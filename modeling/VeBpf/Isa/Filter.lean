import VeBpf.Isa.Operations
import VeBpf.Lib.ByteOrder
import VeBpf.Lib.Expansion
import VeBpf.Lib.Halves
import VeBpf.Tools.Converter

/-!
# What converted filters are made of

The part of eBPF that `convert` writes, on a state of its own: the accumulator and
the index register as 32-bit words, the scratch words, and how far `r7` is from the
packet. There are no addresses, and nothing is said of an instruction that leaves
the packet or the scratch words, or shifts by more than a word. Whatever runs eBPF
runs this part, the core as well as the interpreter of `ubpf`.
-/

namespace VeBpf

open ByteMem ByteOrder Halves HexText Expansion

/-- The state of a converted filter. -/
structure Filter where
  pc : Nat
  a : BitVec 32
  x : BitVec 32
  tmp : Option (BitVec 64)
  mem : Vector (BitVec 32) 16

namespace Filter

/-- The two registers of classic BPF. -/
inductive Acc where
  | a
  | x

def Acc.reg : Acc → BitVec 4
  | .a => C2e.regA
  | .x => C2e.regX

def get (f : Filter) : Acc → BitVec 32
  | .a => f.a
  | .x => f.x

/-- Set a register and go on. -/
def set (f : Filter) (r : Acc) (v : BitVec 32) : Filter :=
  match r with
  | .a => { f with a := v, pc := f.pc + 1 }
  | .x => { f with x := v, pc := f.pc + 1 }

/-- The offset of scratch word `k` from `r10`. -/
def scratch (k : Nat) : BitVec 16 := -(4 * BitVec.ofNat 16 (k + 1))

/-- The `n` bytes of the packet at `k`, lowest first. -/
def packetWord (n : Nat) (data : List (BitVec 8)) (k : Nat) : BitVec 32 :=
  BitVec.ofNat 32 (beNat ((data.drop k).take n).reverse)

/-- The low `n` bytes of a word, highest first. -/
def swap (n : Nat) (v : BitVec 32) : BitVec 32 := BitVec.ofNat 32 (beNat (lowBytes v n))

/-- **One instruction of a converted filter.** -/
inductive Next (data : List (BitVec 8)) : Insn → Filter → Filter → Prop
  | alu (op : AluOp) (r : Acc) (k : BitVec 32) (f : Filter) (hdiv : op.divides = true → k ≠ 0) :
      Next data ⟨op.opcode opcAlu false, r.reg, 0, 0, k⟩ f (f.set r (op.eval (f.get r) k))
  | aluReg (op : AluOp) (r q : Acc) (f : Filter) (hdiv : op.divides = true → f.get q ≠ 0) :
      Next data ⟨op.opcode opcAlu true, r.reg, q.reg, 0, 0⟩ f
        (f.set r (op.eval (f.get r) (f.get q)))
  | shift (op : ShiftOp) (r : Acc) (k : BitVec 32) (f : Filter) (hk : k.toNat < 32) :
      Next data ⟨op.opcode opcAlu false, r.reg, 0, 0, k⟩ f (f.set r (op.eval (f.get r) k.toNat))
  | shiftReg (op : ShiftOp) (r q : Acc) (f : Filter) (hk : (f.get q).toNat < 32) :
      Next data ⟨op.opcode opcAlu true, r.reg, q.reg, 0, 0⟩ f
        (f.set r (op.eval (f.get r) (f.get q).toNat))
  | load (op : BitVec 8) (n : Nat) (r : Acc) (off : BitVec 16) (f : Filter)
      (hop : loadWidth op = some n) (hn : n ≤ 4) (hoff : off.toNat < 2 ^ 15)
      (hin : off.toNat + n ≤ data.length) :
      Next data ⟨op, r.reg, C2e.r1, off, 0⟩ f (f.set r (packetWord n data off.toNat))
  | loadAt (op : BitVec 8) (n : Nat) (r : Acc) (off : BitVec 16) (t : BitVec 64) (f : Filter)
      (hop : loadWidth op = some n) (hn : n ≤ 4) (hoff : off.toNat < 2 ^ 15)
      (htmp : f.tmp = some t) (hin : t.toNat + off.toNat + n ≤ data.length) :
      Next data ⟨op, r.reg, C2e.regTmp, off, 0⟩ f
        (f.set r (packetWord n data (t.toNat + off.toNat)))
  | packet (f : Filter) :
      Next data ⟨ebpfOpMov64Reg, C2e.regTmp, C2e.r1, 0, 0⟩ f
        { f with tmp := some 0, pc := f.pc + 1 }
  | packetX (t : BitVec 64) (f : Filter) (htmp : f.tmp = some t) :
      Next data ⟨ebpfOpAdd64Reg, C2e.regTmp, C2e.regX, 0, 0⟩ f
        { f with tmp := some (t + f.x.setWidth 64), pc := f.pc + 1 }
  | be (n : Nat) (f : Filter) (hn : n = 2 ∨ n = 4) :
      Next data ⟨ebpfOpBe, C2e.regA, 0, 0, BitVec.ofNat 32 (8 * n)⟩ f (f.set .a (swap n f.a))
  | fetch (r : Acc) (k : Nat) (v : BitVec 32) (f : Filter) (hv : f.mem[k]? = some v) :
      Next data ⟨ebpfOpLdxw, r.reg, C2e.r10, scratch k, 0⟩ f (f.set r v)
  | store (r : Acc) (k : Nat) (f : Filter) (hk : k < 16) :
      Next data ⟨ebpfOpStxw, C2e.r10, r.reg, scratch k, 0⟩ f
        { f with mem := f.mem.setIfInBounds k (f.get r), pc := f.pc + 1 }
  | ja (off : BitVec 16) (f : Filter) (hoff : off.toNat < 2 ^ 15) :
      Next data ⟨ebpfOpJa, 0, 0, off, 0⟩ f { f with pc := f.pc + 1 + off.toNat }
  | jmp (op : JumpOp) (k : BitVec 32) (off : BitVec 16) (f : Filter) (hop : op.signed = false)
      (hoff : off.toNat < 2 ^ 15) :
      Next data ⟨op.opcode false, C2e.regA, 0, off, k⟩ f
        { f with pc := f.pc + 1 + if op.holds f.a k then off.toNat else 0 }
  | jmpReg (op : JumpOp) (off : BitVec 16) (f : Filter) (hop : op.signed = false)
      (hoff : off.toNat < 2 ^ 15) :
      Next data ⟨op.opcode true, C2e.regX, C2e.r0, off, 0⟩ f
        { f with pc := f.pc + 1 + if op.holds f.x f.a then off.toNat else 0 }

/-- `EXIT` returns the accumulator. -/
def Ret (i : Insn) (f : Filter) (v : BitVec 32) : Prop := i = C2e.exit ∧ v = f.a

/-- The filter runs from a state to its result. -/
abbrev Returns (code : List Insn) (data : List (BitVec 8)) : Filter → BitVec 32 → Prop :=
  Runs Filter.pc (Next data) Ret code

/-! ## Byte order -/

theorem length_window (n : Nat) (data : List (BitVec 8)) {k : Nat} (h : k + n ≤ data.length) :
    ((data.drop k).take n).length = n := by
  rw [List.length_take, List.length_drop]
  omega

/-- A word of the packet, swapped, is the number that the interpreter reads. -/
theorem swap_packetWord {n k : Nat} {data : List (BitVec 8)} (hn : n ≤ 4)
    (h : k + n ≤ data.length) :
    swap n (packetWord n data k) = Cbpf.Simple.bigEndian n data k := by
  have hlen := length_window n data h
  have hpow : 256 ^ ((data.drop k).take n).length ≤ 2 ^ 32 := by
    rw [hlen, show (2 : Nat) ^ 32 = 256 ^ 4 from rfl]
    exact Nat.pow_le_pow_right (by omega) hn
  have hlow := lowBytes_beNat (w := 32) _ hpow
  rw [hlen] at hlow
  rw [swap, packetWord, hlow]
  rfl

/-- A single byte has no order. -/
theorem packetWord_one (data : List (BitVec 8)) (k : Nat) :
    packetWord 1 data k = Cbpf.Simple.bigEndian 1 data k := by
  have hrev : ((data.drop k).take 1).reverse = (data.drop k).take 1 := by
    cases data.drop k with
    | nil => rfl
    | cons b _ => rfl
  rw [packetWord, hrev]
  rfl

/-- The bytes of a word swapped in a register. -/
theorem swapped_zeroExtend {n : Nat} (hn : n ≤ 4) (v : BitVec 32) :
    swapped (v.setWidth 64) n = (swap n v).setWidth 64 := by
  have hlow : lowBytes (v.setWidth 64) n = lowBytes v n := by
    refine List.map_congr_left fun i _ => ?_
    rw [getByte_eq, getByte_eq, toNat_zeroExtend]
  have hlt : beNat (lowBytes v n) < 2 ^ 32 := by
    have hbound := beNat_reverse_lt (lowBytes v n).reverse
    rw [List.reverse_reverse, List.length_reverse, length_lowBytes] at hbound
    calc beNat (lowBytes v n) < 256 ^ n := hbound
      _ ≤ 256 ^ 4 := Nat.pow_le_pow_right (by omega) hn
  apply BitVec.eq_of_toNat_eq
  rw [swapped, hlow, toNat_zeroExtend, swap, BitVec.toNat_ofNat, BitVec.toNat_ofNat,
    Nat.mod_eq_of_lt hlt, Nat.mod_eq_of_lt (Nat.lt_trans hlt (by decide))]

/-! ## In a memory -/

section Memory

variable {a : Nat} {mem : BitVec a → BitVec 8}

/-- A word of the packet, as a load finds it. -/
theorem loadLE_packetWord {p : BitVec a} {data : List (BitVec 8)} (h : HoldsBytes mem p data)
    {n k : Nat} (hn : n ≤ 4) (hin : k + n ≤ data.length) :
    loadLE 64 mem (p + BitVec.ofNat a k) n = (packetWord n data k).setWidth 64 := by
  have hbytes : (List.range n).map (fun i => mem (p + BitVec.ofNat a k + BitVec.ofNat a i))
      = (data.drop k).take n := by
    apply List.ext_getElem?
    intro i
    by_cases hi : i < n
    · have hdata := List.getElem?_eq_getElem (l := data) (i := k + i) (by omega)
      have hbyte := h _ _ hdata
      rw [List.getElem?_map, List.getElem?_range hi, List.getElem?_take_of_lt hi,
        List.getElem?_drop, hdata, Option.map_some, BitVec.add_assoc, ← BitVec.ofNat_add, hbyte]
    · rw [List.getElem?_eq_none (by simpa using hi), List.getElem?_eq_none]
      rw [length_window n data hin]
      omega
  have hlt : beNat ((data.drop k).take n).reverse < 2 ^ 32 := by
    have hbound := beNat_reverse_lt ((data.drop k).take n)
    rw [length_window n data hin] at hbound
    calc beNat ((data.drop k).take n).reverse < 256 ^ n := hbound
      _ ≤ 256 ^ 4 := Nat.pow_le_pow_right (by omega) hn
  apply BitVec.eq_of_toNat_eq
  rw [toNat_loadLE_beNat _ _ (by omega), hbytes, toNat_zeroExtend, packetWord,
    BitVec.toNat_ofNat, Nat.mod_eq_of_lt hlt]

/-- Scratch word `k` lies at `pos k`. -/
def HoldsScratch (mem : BitVec a → BitVec 8) (pos : Nat → BitVec a)
    (words : Vector (BitVec 32) 16) : Prop :=
  ∀ k v, words[k]? = some v → loadLE 64 mem (pos k) 4 = v.setWidth 64

/-- The scratch words after a store to one of them, when they do not overlap. -/
theorem HoldsScratch.store {pos : Nat → BitVec a} {words : Vector (BitVec 32) 16}
    (h : HoldsScratch mem pos words) (ha : 4 ≤ 2 ^ a)
    (hapart : ∀ j k i, j < 16 → k < 16 → k ≠ j → i < 4 →
      ¬ (pos j + BitVec.ofNat a i - pos k).toNat < 4)
    {k : Nat} (hk : k < 16) (v : BitVec 32) :
    HoldsScratch (storeLE mem (pos k) (v.setWidth 64) 4) pos (words.setIfInBounds k v) := by
  intro j u hu
  by_cases hjk : k = j
  · subst hjk
    rw [Vector.getElem?_setIfInBounds_self_of_lt hk] at hu
    obtain rfl := Option.some.inj hu
    apply BitVec.eq_of_toNat_eq
    rw [toNat_loadLE_storeLE _ _ _ (by omega) ha, toNat_zeroExtend]
    exact Nat.mod_eq_of_lt v.isLt
  · rw [Vector.getElem?_setIfInBounds_ne hjk] at hu
    have hj : j < 16 := by
      by_contra hj
      rw [Vector.getElem?_eq_none (by omega)] at hu
      cases hu
    rw [← h j u hu]
    exact loadLE_congr fun i hi => storeLE_outside _ _ _ (hapart j k i hj hk hjk hi)

end Memory

/-! ## Registers -/

@[simp] theorem set_pc (f : Filter) (r : Acc) (v : BitVec 32) : (f.set r v).pc = f.pc + 1 := by
  cases r <;> rfl

@[simp] theorem set_mem (f : Filter) (r : Acc) (v : BitVec 32) : (f.set r v).mem = f.mem := by
  cases r <;> rfl

@[simp] theorem set_tmp (f : Filter) (r : Acc) (v : BitVec 32) : (f.set r v).tmp = f.tmp := by
  cases r <;> rfl

end Filter

end VeBpf
