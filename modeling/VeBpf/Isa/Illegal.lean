import VeBpf.Isa.Operations
import VeBpf.Lib.Halves

/-!
# Illegal words

Which words the instruction set refuses, read off the parameter table and the
operands: `illegal` knows nothing of the arms of the core. The results here say
that the machine of `VeBpf.Isa.Machine` raises an error for these and no others,
and what it leaves behind.
-/

namespace VeBpf

/-! ## The opcodes of the parameter table, `LDDW` apart -/

namespace Opcodes

def div32 : List (BitVec 8) := [ebpfOpDivImm, ebpfOpDivReg, ebpfOpModImm, ebpfOpModReg]

def shift32 : List (BitVec 8) :=
  [ebpfOpArshImm, ebpfOpArshReg, ebpfOpLshImm, ebpfOpLshReg, ebpfOpRshImm, ebpfOpRshReg]

def plain32 : List (BitVec 8) :=
  [ebpfOpAddImm, ebpfOpAddReg, ebpfOpSubImm, ebpfOpSubReg, ebpfOpMulImm, ebpfOpMulReg,
    ebpfOpOrImm, ebpfOpOrReg, ebpfOpAndImm, ebpfOpAndReg, ebpfOpNeg, ebpfOpXorImm, ebpfOpXorReg,
    ebpfOpMovImm, ebpfOpMovReg, ebpfOpLe, ebpfOpBe]

def div64 : List (BitVec 8) := [ebpfOpDiv64Imm, ebpfOpDiv64Reg, ebpfOpMod64Imm, ebpfOpMod64Reg]

def shift64 : List (BitVec 8) :=
  [ebpfOpArsh64Imm, ebpfOpArsh64Reg, ebpfOpLsh64Imm, ebpfOpLsh64Reg, ebpfOpRsh64Imm,
    ebpfOpRsh64Reg]

def plain64 : List (BitVec 8) :=
  [ebpfOpAdd64Imm, ebpfOpAdd64Reg, ebpfOpSub64Imm, ebpfOpSub64Reg, ebpfOpMul64Imm,
    ebpfOpMul64Reg, ebpfOpOr64Imm, ebpfOpOr64Reg, ebpfOpAnd64Imm, ebpfOpAnd64Reg, ebpfOpNeg64,
    ebpfOpXor64Imm, ebpfOpXor64Reg, ebpfOpMov64Imm, ebpfOpMov64Reg]

def ldx : List (BitVec 8) := [ebpfOpLdxb, ebpfOpLdxh, ebpfOpLdxw, ebpfOpLdxdw]

def st : List (BitVec 8) := [ebpfOpStb, ebpfOpSth, ebpfOpStw, ebpfOpStdw]

def stx : List (BitVec 8) := [ebpfOpStxb, ebpfOpStxh, ebpfOpStxw, ebpfOpStxdw]

def jump : List (BitVec 8) :=
  [ebpfOpJa, ebpfOpJeqImm, ebpfOpJeqReg, ebpfOpJgtImm, ebpfOpJgtReg, ebpfOpJgeImm, ebpfOpJgeReg,
    ebpfOpJsetImm, ebpfOpJsetReg, ebpfOpJneImm, ebpfOpJneReg, ebpfOpJsgtImm, ebpfOpJsgtReg,
    ebpfOpJsgeImm, ebpfOpJsgeReg, ebpfOpJltImm, ebpfOpJltReg, ebpfOpJleImm, ebpfOpJleReg,
    ebpfOpJsltImm, ebpfOpJsltReg, ebpfOpJsleImm, ebpfOpJsleReg]

/-- The opcodes of a class, in the order of the class codes from `opcLdx` on. -/
def ofClass (cls : BitVec 8) : List (BitVec 8) :=
  if cls = opcLdx then ldx
  else if cls = opcSt then st
  else if cls = opcStx then stx
  else if cls = opcAlu then div32 ++ shift32 ++ plain32
  else if cls = opcJmp then [ebpfOpCall, ebpfOpExit] ++ jump
  else if cls = opcAlu64 then div64 ++ shift64 ++ plain64
  else []

/-- All the opcodes that the core supports. -/
def supported : List (BitVec 8) :=
  ldx ++ st ++ stx ++ (div32 ++ shift32 ++ plain32) ++ ([ebpfOpCall, ebpfOpExit] ++ jump)
    ++ (div64 ++ shift64 ++ plain64)

theorem opclass_of_mem {l : List (BitVec 8)} {cls op : BitVec 8} {n : Nat}
    (h : l.map opclassOf = List.replicate n cls) (hop : op ∈ l) : opclassOf op = cls := by
  have hmem := List.mem_map_of_mem (f := opclassOf) hop
  rw [h] at hmem
  exact List.eq_of_mem_replicate hmem

/-- The opcodes of a list are of the class that it is listed under. -/
theorem mem_supported (op : BitVec 8) : op ∈ supported ↔ op ∈ ofClass (opclassOf op) := by
  have hldx : ldx.map opclassOf = List.replicate 4 opcLdx := rfl
  have hst : st.map opclassOf = List.replicate 4 opcSt := rfl
  have hstx : stx.map opclassOf = List.replicate 4 opcStx := rfl
  have halu : (div32 ++ shift32 ++ plain32).map opclassOf = List.replicate 27 opcAlu := rfl
  have hjmp : ([ebpfOpCall, ebpfOpExit] ++ jump).map opclassOf = List.replicate 25 opcJmp := rfl
  have halu64 : (div64 ++ shift64 ++ plain64).map opclassOf = List.replicate 25 opcAlu64 := rfl
  constructor
  · intro h
    rw [supported, List.mem_append, List.mem_append, List.mem_append, List.mem_append,
      List.mem_append] at h
    rcases h with ((((h | h) | h) | h) | h) | h
    · rw [opclass_of_mem hldx h]; exact h
    · rw [opclass_of_mem hst h]; exact h
    · rw [opclass_of_mem hstx h]; exact h
    · rw [opclass_of_mem halu h]; exact h
    · rw [opclass_of_mem hjmp h]; exact h
    · rw [opclass_of_mem halu64 h]; exact h
  · intro h
    rw [supported, List.mem_append, List.mem_append, List.mem_append, List.mem_append,
      List.mem_append]
    unfold ofClass at h
    split_ifs at h
    · exact Or.inl (Or.inl (Or.inl (Or.inl (Or.inl h))))
    · exact Or.inl (Or.inl (Or.inl (Or.inl (Or.inr h))))
    · exact Or.inl (Or.inl (Or.inl (Or.inr h)))
    · exact Or.inl (Or.inl (Or.inr h))
    · exact Or.inl (Or.inr h)
    · exact Or.inr h
    · exact absurd h List.not_mem_nil

end Opcodes

/-! ## The words that are refused -/

/-- The number a word divides by, if it divides. -/
def divisor (r : Regs) (w : BitVec 64) : Option Nat :=
  let op := opcodeOf w
  if op ∈ [ebpfOpDivImm, ebpfOpModImm, ebpfOpDiv64Imm, ebpfOpMod64Imm] then
    some (immediateOf w).toNat
  else if op ∈ [ebpfOpDivReg, ebpfOpModReg] then some ((r.read (srcOf w)).toNat % 2 ^ 32)
  else if op ∈ [ebpfOpDiv64Reg, ebpfOpMod64Reg] then some (r.read (srcOf w)).toNat
  else none

/-- The word is a quotient, not a remainder. -/
def isDiv (w : BitVec 64) : Bool :=
  opcodeOf w ∈ [ebpfOpDivImm, ebpfOpDivReg, ebpfOpDiv64Imm, ebpfOpDiv64Reg]

/-- The byte swap is of a width that does not exist. -/
def badSwap (w : BitVec 64) : Bool :=
  decide (opcodeOf w ∈ [ebpfOpLe, ebpfOpBe])
    && !decide (immediateOf w ∈ [16#32, 32#32, 64#32])

/-- The call is of a function that does not exist. -/
def badCall (w : BitVec 64) : Bool :=
  opcodeOf w == ebpfOpCall && !CallStore.known ((immediateOf w).setWidth 64)

/-- **The word is illegal.** -/
def illegal (r : Regs) (w : BitVec 64) : Bool :=
  badRegisters w || !decide (opcodeOf w ∈ Opcodes.supported) || badSwap w
    || divisor r w == some 0 || badCall w

/-- The registers that an error leaves behind: all as they were, but for the destination of a
quotient by zero. -/
def leftBehind (r : Regs) (w : BitVec 64) : Regs :=
  if badRegisters w = false ∧ divisor r w = some 0 ∧ isDiv w = true then r.write (dstOf w) 0 else r

/-! ## Each table of the core has the opcodes of its list -/

section Tables

variable {op : BitVec 8} {d x : BitVec 64} {imm : BitVec 32} {st : CpuState}

theorem ite_some_eq_none {α : Type} {p : Prop} [Decidable p] {v : α} {rest : Option α} :
    (if p then some v else rest) = none ↔ ¬ p ∧ rest = none := by
  split_ifs with hp <;> simp [hp]

theorem aluDiv32_eq_none : aluDiv32 op d x imm = none ↔ op ∉ Opcodes.div32 := by
  simp only [aluDiv32, Opcodes.div32, ite_some_eq_none, List.mem_cons,
    List.not_mem_nil, not_or, not_false_eq_true]

theorem aluShift32_eq_none : aluShift32 op d x imm st = none ↔ op ∉ Opcodes.shift32 := by
  simp only [aluShift32, Opcodes.shift32, ite_some_eq_none, List.mem_cons,
    List.not_mem_nil, not_or, not_false_eq_true]

theorem aluDiv64_eq_none : aluDiv64 op d x imm = none ↔ op ∉ Opcodes.div64 := by
  simp only [aluDiv64, Opcodes.div64, ite_some_eq_none, List.mem_cons,
    List.not_mem_nil, not_or, not_false_eq_true]

theorem aluShift64_eq_none : aluShift64 op d x imm st = none ↔ op ∉ Opcodes.shift64 := by
  simp only [aluShift64, Opcodes.shift64, ite_some_eq_none, List.mem_cons,
    List.not_mem_nil, not_or, not_false_eq_true]

theorem aluDefault64_eq_none : aluDefault64 op d x imm = none ↔ op ∉ Opcodes.plain64 := by
  simp only [aluDefault64, Opcodes.plain64, ite_some_eq_none, List.mem_cons,
    List.not_mem_nil, not_or, not_false_eq_true]

theorem stArm_eq_none : stArm op imm = none ↔ op ∉ Opcodes.st := by
  simp only [stArm, Opcodes.st, ite_some_eq_none, List.mem_cons,
    List.not_mem_nil, not_or, not_false_eq_true]

theorem stxArm_eq_none : stxArm op x = none ↔ op ∉ Opcodes.stx := by
  simp only [stxArm, Opcodes.stx, ite_some_eq_none, List.mem_cons,
    List.not_mem_nil, not_or, not_false_eq_true]

theorem loadWidth_eq_none : loadWidth op = none ↔ op ∉ Opcodes.ldx := by
  simp only [loadWidth, Opcodes.ldx, ite_some_eq_none, List.mem_cons,
    List.not_mem_nil, not_or, not_false_eq_true]

theorem jmpArm_eq_none : jmpArm op d x imm = none ↔ op ∉ Opcodes.jump := by
  simp only [jmpArm, Opcodes.jump, ite_some_eq_none, List.mem_cons,
    List.not_mem_nil, not_or, not_false_eq_true]

theorem leArm_eq_none : leArm d imm = none ↔ imm ∉ [16#32, 32#32, 64#32] := by
  simp only [leArm, ite_some_eq_none, List.mem_cons, List.not_mem_nil, not_or, not_false_eq_true]

theorem beArm_eq_none : beArm d imm = none ↔ imm ∉ [16#32, 32#32, 64#32] := by
  simp only [beArm, ite_some_eq_none, List.mem_cons, List.not_mem_nil, not_or, not_false_eq_true]

theorem aluDefault32_eq_none : aluDefault32 op d x imm = none
    ↔ op ∉ Opcodes.plain32 ∨ (op ∈ [ebpfOpLe, ebpfOpBe] ∧ imm ∉ [16#32, 32#32, 64#32]) := by
  by_cases hle : op = ebpfOpLe
  · subst hle
    have harm : aluDefault32 ebpfOpLe d x imm = leArm d imm := rfl
    have hin : ebpfOpLe ∈ Opcodes.plain32 := by simp [Opcodes.plain32]
    rw [harm, leArm_eq_none]
    simp [hin]
  · by_cases hbe : op = ebpfOpBe
    · subst hbe
      have harm : aluDefault32 ebpfOpBe d x imm = beArm d imm := rfl
      have hin : ebpfOpBe ∈ Opcodes.plain32 := by simp [Opcodes.plain32]
      rw [harm, beArm_eq_none]
      simp [hin]
    · simp only [aluDefault32, Opcodes.plain32, ite_some_eq_none, hle, hbe, List.mem_cons,
        List.not_mem_nil, not_or, and_true, if_false, or_self, false_and, or_false]

end Tables

/-! ## What the machine does with an illegal word -/

namespace Machine

variable {m : Machine} {w : BitVec 64}

/-- An opcode of another class is not in a list. -/
theorem not_mem_of_class {l : List (BitVec 8)} {cls : BitVec 8} {n : Nat}
    (hl : l.map opclassOf = List.replicate n cls) (hne : opclassOf (opcodeOf w) ≠ cls) :
    opcodeOf w ∉ l :=
  fun hin => hne (Opcodes.opclass_of_mem hl hin)

/-- Only arithmetic divides. -/
theorem divisor_none (h : opcodeOf w ∉ Opcodes.div32) (h64 : opcodeOf w ∉ Opcodes.div64) :
    divisor m.regs w = none := by
  simp only [Opcodes.div32, Opcodes.div64, List.mem_cons, List.not_mem_nil, or_false, not_or]
    at h h64
  simp only [divisor, List.mem_cons, List.not_mem_nil, h, h64, or_false, if_false]

/-- The number that the arithmetic arms divide by. -/
theorem aluWork_divisor (halu : isAlu w) :
    (m.aluWork w).div.map (fun q => q.divisor.toNat) = divisor m.regs w
    ∧ ∀ q, (m.aluWork w).div = some q → q.wantsRemainder = !isDiv w := by
  have himm := Halves.toNat_zeroExtend (immediateOf w)
  have hlow : (low32 ((immediateOf w).setWidth 64)).toNat = (immediateOf w).toNat := by
    rw [toNat_low32, himm, Nat.mod_eq_of_lt (immediateOf w).isLt]
  have hsrc := toNat_low32 (m.regs.read (srcOf w))
  -- either class has a table of its own, and no opcode of the other's is in it
  rcases halu with hcls | hcls
  · have h64 : opcodeOf w ∉ Opcodes.div64 :=
      @not_mem_of_class w _ opcAlu64 4 rfl (by rw [hcls]; decide)
    rw [aluWork, if_pos hcls]
    dsimp only
    by_cases h : opcodeOf w ∈ Opcodes.div32
    · simp only [Opcodes.div32, List.mem_cons, List.not_mem_nil, or_false] at h
      unfold divisor isDiv
      rcases h with h | h | h | h <;> rw [h]
      · exact ⟨congrArg some hlow, fun q hq => by cases hq; rfl⟩
      · exact ⟨congrArg some hsrc, fun q hq => by cases hq; rfl⟩
      · exact ⟨congrArg some hlow, fun q hq => by cases hq; rfl⟩
      · exact ⟨congrArg some hsrc, fun q hq => by cases hq; rfl⟩
    · rw [aluDiv32_eq_none.mpr h, divisor_none h h64]
      exact ⟨rfl, fun q hq => by cases hq⟩
  · have h32 : opcodeOf w ∉ Opcodes.div32 :=
      @not_mem_of_class w _ opcAlu 4 rfl (by rw [hcls]; decide)
    rw [aluWork, if_neg (by rw [hcls]; decide)]
    dsimp only
    by_cases h : opcodeOf w ∈ Opcodes.div64
    · simp only [Opcodes.div64, List.mem_cons, List.not_mem_nil, or_false] at h
      unfold divisor isDiv
      rcases h with h | h | h | h <;> rw [h]
      · exact ⟨congrArg some himm, fun q hq => by cases hq; rfl⟩
      · exact ⟨rfl, fun q hq => by cases hq; rfl⟩
      · exact ⟨congrArg some himm, fun q hq => by cases hq; rfl⟩
      · exact ⟨rfl, fun q hq => by cases hq; rfl⟩
    · rw [aluDiv64_eq_none.mpr h, divisor_none h32 h]
      exact ⟨rfl, fun q hq => by cases hq⟩

theorem badSwap_iff (w : BitVec 64) : badSwap w = true
    ↔ opcodeOf w ∈ [ebpfOpLe, ebpfOpBe] ∧ immediateOf w ∉ [16#32, 32#32, 64#32] := by
  rw [badSwap, Bool.and_eq_true, decide_eq_true_iff, Bool.not_eq_true', decide_eq_false_iff_not]

/-- Only 32-bit arithmetic swaps bytes. -/
theorem badSwap_false (hcls : opclassOf (opcodeOf w) ≠ opcAlu) : badSwap w = false := by
  rw [← Bool.not_eq_true, badSwap_iff]
  exact fun h => @not_mem_of_class w [ebpfOpLe, ebpfOpBe] opcAlu 2 rfl hcls h.1

/-- The arithmetic arms have nothing for a word exactly if its opcode is none of theirs, or it is a
byte swap of a width that does not exist. -/
theorem aluWork_none (halu : isAlu w) :
    (m.aluWork w).div = none ∧ (m.aluWork w).shift = none ∧ (m.aluWork w).res = none
      ↔ opcodeOf w ∉ Opcodes.supported ∨ badSwap w = true := by
  rw [Opcodes.mem_supported]
  rcases halu with hcls | hcls
  · rw [aluWork, if_pos hcls, hcls]
    show aluDiv32 _ _ _ _ = none ∧ aluShift32 _ _ _ _ _ = none ∧ aluDefault32 _ _ _ _ = none
      ↔ opcodeOf w ∉ Opcodes.div32 ++ Opcodes.shift32 ++ Opcodes.plain32 ∨ _
    rw [aluDiv32_eq_none, aluShift32_eq_none, aluDefault32_eq_none, List.mem_append,
      List.mem_append, badSwap_iff]
    -- the byte swaps are in the table of the plain operations only
    have hswap : opcodeOf w ∈ [ebpfOpLe, ebpfOpBe] →
        opcodeOf w ∉ Opcodes.div32 ∧ opcodeOf w ∉ Opcodes.shift32 := by
      intro h
      simp only [List.mem_cons, List.not_mem_nil, or_false] at h
      rcases h with h | h <;> rw [h] <;> decide
    constructor
    · rintro ⟨hdiv, hshift, hplain | hbad⟩
      · exact Or.inl fun h => h.elim (fun h => h.elim hdiv hshift) hplain
      · exact Or.inr hbad
    · rintro (hnone | hbad)
      · exact ⟨fun h => hnone (Or.inl (Or.inl h)), fun h => hnone (Or.inl (Or.inr h)),
          Or.inl fun h => hnone (Or.inr h)⟩
      · exact ⟨(hswap hbad.1).1, (hswap hbad.1).2, Or.inr hbad⟩
  · rw [aluWork, if_neg (by rw [hcls]; decide), hcls, badSwap_false (by rw [hcls]; decide)]
    show aluDiv64 _ _ _ _ = none ∧ aluShift64 _ _ _ _ _ = none ∧ aluDefault64 _ _ _ _ = none
      ↔ opcodeOf w ∉ Opcodes.div64 ++ Opcodes.shift64 ++ Opcodes.plain64 ∨ _
    rw [aluDiv64_eq_none, aluShift64_eq_none, aluDefault64_eq_none, List.mem_append,
      List.mem_append]
    simp only [not_or, Bool.false_eq_true, or_false, and_assoc]

/-- An arithmetic word that divides nothing fails if its arms have nothing for it, and else sets its
destination. -/
theorem arith_undivided (shift : Option ShiftRequest) (keep : BitVec 64 → BitVec 64)
    (res : Option (BitVec 64)) :
    ((shift = none ∧ res = none) ∧ m.arith w none shift keep res = m.fail)
    ∨ (¬ (shift = none ∧ res = none)
      ∧ ∃ v, m.arith w none shift keep res = m.set (dstOf w) v) := by
  cases shift with
  | some q => exact Or.inr ⟨fun h => Option.some_ne_none q h.1, _, rfl⟩
  | none =>
      cases res with
      | some v => exact Or.inr ⟨fun h => Option.some_ne_none v h.2, v, rfl⟩
      | none => exact Or.inl ⟨⟨rfl, rfl⟩, rfl⟩

/-- A division by zero fails, and clears its destination if it is a quotient. -/
theorem arith_zero {q : DivRequest} (shift : Option ShiftRequest) (keep : BitVec 64 → BitVec 64)
    (res : Option (BitVec 64)) (hz : q.divisor = 0) :
    m.arith w (some q) shift keep res
      = (if q.wantsRemainder then m
          else { m with regs := m.regs.write (dstOf w) 0 }).fail :=
  if_pos hz

/-- **An arithmetic word raises an error** if its arms have nothing for it, or it divides by zero;
a division by zero clears its destination if it is a quotient. -/
theorem dispatch_alu_error (herr : m.error = false) (halu : isAlu w) :
    ((m.dispatch w).error = true ↔ opcodeOf w ∉ Opcodes.supported ∨ badSwap w = true
      ∨ divisor m.regs w = some 0)
    ∧ ((m.dispatch w).error = true → (m.dispatch w).mem = m.mem
      ∧ (m.dispatch w).regs = if divisor m.regs w = some 0 ∧ isDiv w = true then
          m.regs.write (dstOf w) 0 else m.regs) := by
  obtain ⟨hdivisor, hwant⟩ := aluWork_divisor (m := m) halu
  have hnone := aluWork_none (m := m) halu
  rw [dispatch_alu halu, ← or_assoc, ← hnone, ← hdivisor]
  generalize (m.aluWork w).div = div at hwant
  generalize (m.aluWork w).shift = shift
  generalize (m.aluWork w).res = res
  have hset : ∀ v, (m.set (dstOf w) v).error ≠ true := by
    intro v
    rw [set_error, herr]
    simp
  cases div with
  | some q =>
      by_cases hz : q.divisor = 0
      · have hzero : q.divisor.toNat = 0 := by rw [hz]; rfl
        rw [arith_zero _ _ _ hz, hwant q rfl]
        refine ⟨iff_of_true rfl (Or.inr (congrArg some hzero)), fun _ => ?_⟩
        cases isDiv w <;> simp [hzero]
      · have harith : m.arith w (some q) shift (m.aluWork w).keep res
            = m.set (dstOf w) q.result := if_neg hz
        have hpos : some q.divisor.toNat ≠ some 0 := by
          intro heq
          exact hz (BitVec.eq_of_toNat_eq (Option.some.inj heq))
        have hlegal : ¬ (some q = none ∧ shift = none ∧ res = none) :=
          fun h => Option.some_ne_none q h.1
        rw [harith]
        exact ⟨iff_of_false (hset _) (not_or.mpr ⟨hlegal, hpos⟩), fun hc => absurd hc (hset _)⟩
  | none =>
      rcases arith_undivided (m := m) (w := w) shift (m.aluWork w).keep res with
        ⟨hempty, harith⟩ | ⟨hsome, v, harith⟩
      · rw [harith]
        exact ⟨iff_of_true rfl (Or.inl ⟨rfl, hempty⟩), fun _ => ⟨rfl, rfl⟩⟩
      · have hlegal : ¬ ((none : Option DivRequest) = none ∧ shift = none ∧ res = none) :=
          fun h => hsome h.2
        rw [harith]
        exact ⟨iff_of_false (hset v) (not_or.mpr ⟨hlegal, by simp⟩),
          fun hc => absurd hc (hset v)⟩

/-- Only jump words call. -/
theorem badCall_false (hcls : opclassOf (opcodeOf w) ≠ opcJmp) : badCall w = false := by
  have hop : opcodeOf w ≠ ebpfOpCall := by
    intro heq
    rw [heq] at hcls
    exact hcls rfl
  rw [badCall, beq_eq_false_iff_ne.mpr hop, Bool.false_and]

/-- `m'` has an error exactly if `p`, and then the registers and data bytes of `m`. -/
def Reports (m m' : Machine) (p : Prop) : Prop :=
  (m'.error = true ↔ p) ∧ (m'.error = true → m'.mem = m.mem ∧ m'.regs = m.regs)

theorem reports_error {m' : Machine} {p : Prop} (hp : p) (he : m'.error = true)
    (hmem : m'.mem = m.mem) (hregs : m'.regs = m.regs) : m.Reports m' p :=
  ⟨iff_of_true he hp, fun _ => ⟨hmem, hregs⟩⟩

theorem reports_none {m' : Machine} {p : Prop} (hp : ¬ p) (he : m'.error = false) :
    m.Reports m' p := by
  have hne : ¬ m'.error = true := by simp [he]
  exact ⟨iff_of_false hne hp, fun hc => absurd hc hne⟩

/-- A jump word raises an error if its opcode is none of the class, or it calls a function that
does not exist. -/
theorem jump_reports (herr : m.error = false) :
    m.Reports (m.jump w)
      (opcodeOf w ∉ [ebpfOpCall, ebpfOpExit] ++ Opcodes.jump ∨ badCall w = true) := by
  by_cases hcall : opcodeOf w = ebpfOpCall
  · have hin : opcodeOf w ∈ [ebpfOpCall, ebpfOpExit] ++ Opcodes.jump := by
      rw [hcall]
      exact List.mem_cons_self
    rw [jump, if_pos hcall, callOut, badCall, hcall, beq_self_eq_true, Bool.true_and]
    rw [hcall] at hin
    cases hknown : CallStore.known ((immediateOf w).setWidth 64) with
    | true => exact reports_none (fun h => h.elim (fun hc => hc hin) (by simp)) herr
    | false => exact reports_error (Or.inr rfl) rfl rfl rfl
  have hnot : badCall w = false := by rw [badCall, beq_eq_false_iff_ne.mpr hcall, Bool.false_and]
  rw [jump, if_neg hcall, hnot]
  by_cases hexit : opcodeOf w = ebpfOpExit
  · have hin : opcodeOf w ∈ [ebpfOpCall, ebpfOpExit] ++ Opcodes.jump := by
      rw [hexit]
      exact List.mem_cons_of_mem _ List.mem_cons_self
    rw [if_pos hexit]
    exact reports_none (fun h => h.elim (fun hc => hc hin) (by simp)) herr
  · have hmem : opcodeOf w ∈ [ebpfOpCall, ebpfOpExit] ++ Opcodes.jump
        ↔ opcodeOf w ∈ Opcodes.jump := by simp [hcall, hexit]
    rw [if_neg hexit, hmem]
    cases harm : jmpArm (opcodeOf w) (m.regs.read (dstOf w)) (m.regs.read (srcOf w))
        (immediateOf w) with
    | none => exact reports_error (Or.inl (jmpArm_eq_none.mp harm)) rfl rfl rfl
    | some taken =>
        have hin : opcodeOf w ∈ Opcodes.jump := by
          by_contra hout
          rw [jmpArm_eq_none.mpr hout] at harm
          cases harm
        cases taken <;> exact reports_none (fun h => h.elim (fun hc => hc hin) (by simp)) herr

/-- A word that divides nothing, swaps no bytes and is no `LDDW`. -/
theorem dispatch_reports (herr : m.error = false) (hop : opcodeOf w ≠ ebpfOpLddw)
    (halu : ¬ isAlu w) :
    m.Reports (m.dispatch w) (opcodeOf w ∉ Opcodes.supported ∨ badCall w = true) := by
  -- a store fails exactly if its table has nothing for it
  have hstore : ∀ (l : List (BitVec 8)) (arm : Option (BitVec 4 × BitVec 64)),
      (arm = none ↔ opcodeOf w ∉ l) →
      m.Reports (m.storeTo w arm) (opcodeOf w ∉ l ∨ false = true) := by
    intro l arm hnone
    cases arm with
    | none => exact reports_error (Or.inl (hnone.mp rfl)) rfl rfl rfl
    | some a =>
        have hin : ¬ opcodeOf w ∉ l := fun hc => by cases hnone.mpr hc
        exact reports_none (fun h => h.elim hin (by simp)) herr
  rw [isAlu, not_or] at halu
  rw [Opcodes.mem_supported]
  rcases opclass_cases (opcodeOf w) with hc | hc | hc | hc | hc | hc | hc | hc
  · rw [dispatch_ld hc, if_neg hop, hc]
    exact reports_error (Or.inl List.not_mem_nil) rfl rfl rfl
  · rw [dispatch_ldx hc, badCall_false (by rw [hc]; decide), hc]
    change m.Reports _ (opcodeOf w ∉ Opcodes.ldx ∨ false = true)
    cases hwidth : loadWidth (opcodeOf w) with
    | none =>
        rw [load, hwidth]
        exact reports_error (Or.inl (loadWidth_eq_none.mp hwidth)) rfl rfl rfl
    | some n =>
        have hin : ¬ opcodeOf w ∉ Opcodes.ldx := by
          intro hout
          rw [loadWidth_eq_none.mpr hout] at hwidth
          cases hwidth
        rw [load, hwidth]
        exact reports_none (fun h => h.elim hin (by simp)) herr
  · rw [dispatch_st hc, badCall_false (by rw [hc]; decide), hc]
    exact hstore _ _ stArm_eq_none
  · rw [dispatch_stx hc, badCall_false (by rw [hc]; decide), hc]
    exact hstore _ _ stxArm_eq_none
  · exact absurd hc halu.1
  · rw [dispatch_jmp hc, hc]
    exact jump_reports herr
  · rw [dispatch_res hc, hc]
    exact reports_error (Or.inl List.not_mem_nil) rfl rfl rfl
  · exact absurd hc halu.2

/-- **A word that starts an instruction raises an error exactly if it is illegal**, and leaves the
registers and the data bytes alone then. -/
theorem dispatch_error (herr : m.error = false) (hop : opcodeOf w ≠ ebpfOpLddw)
    (hreg : badRegisters w = false) :
    ((m.dispatch w).error = true ↔ illegal m.regs w = true)
    ∧ ((m.dispatch w).error = true → (m.dispatch w).mem = m.mem
      ∧ (m.dispatch w).regs = leftBehind m.regs w) := by
  have hillegal : illegal m.regs w = true ↔ opcodeOf w ∉ Opcodes.supported ∨ badSwap w = true
      ∨ divisor m.regs w = some 0 ∨ badCall w = true := by
    simp [illegal, hreg, or_assoc]
  rw [hillegal, leftBehind, hreg]
  simp only [true_and]
  by_cases halu : isAlu w
  · have hcall : badCall w = false :=
      badCall_false (by rcases halu with hc | hc <;> rw [hc] <;> decide)
    simp only [hcall, Bool.false_eq_true, or_false]
    exact dispatch_alu_error herr halu
  · have hreports := dispatch_reports herr hop halu
    rw [isAlu, not_or] at halu
    have hnodiv : divisor m.regs w = none :=
      divisor_none (@not_mem_of_class w _ opcAlu 4 rfl halu.1)
        (@not_mem_of_class w _ opcAlu64 4 rfl halu.2)
    rw [hnodiv, badSwap_false halu.1, if_neg (by simp)]
    simp only [Bool.false_eq_true, reduceCtorEq, false_or]
    exact hreports

end Machine

end VeBpf
