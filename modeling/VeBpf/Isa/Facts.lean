import VeBpf.Isa.Program
import Mathlib.Tactic.SplitIfs

/-!
# What a word can change

For each kind of word, the parts of the machine it leaves alone. `exec` is never
unfolded outside this file and the refinement.
-/

namespace VeBpf

open ByteMem

/-! ## Low halves -/

theorem low32_eq (x : BitVec 64) : low32 x = (x.setWidth 32).setWidth 64 := by
  apply BitVec.eq_of_toNat_eq
  have hmask : (0xffffffff#64).toNat = 2 ^ 32 - 1 := rfl
  rw [low32, BitVec.toNat_and, hmask, Nat.and_two_pow_sub_one_eq_mod, BitVec.toNat_setWidth,
    BitVec.toNat_setWidth]
  omega

theorem toNat_low32 (x : BitVec 64) : (low32 x).toNat = x.toNat % 2 ^ 32 := by
  rw [low32_eq, BitVec.toNat_setWidth, BitVec.toNat_setWidth]
  omega

/-! ## Opcode classes -/

/-- The classes are pairwise different. -/
theorem opc_ne : opcLdx ≠ opcLd ∧ opcSt ≠ opcLd ∧ opcSt ≠ opcLdx ∧ opcStx ≠ opcLd ∧ opcStx ≠ opcLdx
    ∧ opcStx ≠ opcSt ∧ opcAlu ≠ opcLd ∧ opcAlu ≠ opcLdx ∧ opcAlu ≠ opcSt ∧ opcAlu ≠ opcStx
    ∧ opcJmp ≠ opcLd ∧ opcJmp ≠ opcLdx ∧ opcJmp ≠ opcSt ∧ opcJmp ≠ opcStx ∧ opcJmp ≠ opcAlu
    ∧ opcRes ≠ opcLd ∧ opcRes ≠ opcLdx ∧ opcRes ≠ opcSt ∧ opcRes ≠ opcStx ∧ opcRes ≠ opcAlu
    ∧ opcRes ≠ opcJmp ∧ opcAlu64 ≠ opcLd ∧ opcAlu64 ≠ opcLdx ∧ opcAlu64 ≠ opcSt
    ∧ opcAlu64 ≠ opcStx ∧ opcAlu64 ≠ opcAlu ∧ opcAlu64 ≠ opcJmp ∧ opcAlu64 ≠ opcRes := by
  decide

theorem opclass_cases (op : BitVec 8) :
    opclassOf op = opcLd ∨ opclassOf op = opcLdx ∨ opclassOf op = opcSt ∨ opclassOf op = opcStx
    ∨ opclassOf op = opcAlu ∨ opclassOf op = opcJmp ∨ opclassOf op = opcRes
    ∨ opclassOf op = opcAlu64 := by
  revert op
  decide

/-- The four tables of an arithmetic word. -/
structure AluWork where
  div : Option DivRequest
  shift : Option ShiftRequest
  keep : BitVec 64 → BitVec 64
  res : Option (BitVec 64)

/-- The tables that `OPC_ALU` and `OPC_ALU64` read. -/
def Machine.aluWork (m : Machine) (w : BitVec 64) : AluWork :=
  let op := opcodeOf w
  let d := m.regs.read (dstOf w)
  let s := m.regs.read (srcOf w)
  let imm := immediateOf w
  if opclassOf op = opcAlu then
    { div := aluDiv32 op d s imm, shift := aluShift32 op d s imm .decode, keep := low32,
      res := aluDefault32 op d s imm }
  else
    { div := aluDiv64 op d s imm, shift := aluShift64 op d s imm .decode, keep := id,
      res := aluDefault64 op d s imm }

/-- The word is one of `OPC_ALU` or `OPC_ALU64`. -/
def isAlu (w : BitVec 64) : Prop :=
  opclassOf (opcodeOf w) = opcAlu ∨ opclassOf (opcodeOf w) = opcAlu64

namespace Machine

variable (m : Machine) (w : BitVec 64)

/-! ## The small steps -/

@[simp] theorem fail_halt : m.fail.halt = true := rfl
@[simp] theorem fail_error : m.fail.error = true := rfl
@[simp] theorem fail_mem : m.fail.mem = m.mem := rfl
@[simp] theorem fail_regs : m.fail.regs = m.regs := rfl
@[simp] theorem fail_store : m.fail.store = m.store := rfl
@[simp] theorem fail_upper : m.fail.upper = m.upper := rfl
@[simp] theorem fail_ip : m.fail.ip = m.ip := rfl

@[simp] theorem next_halt : m.next.halt = m.halt := rfl
@[simp] theorem next_error : m.next.error = m.error := rfl
@[simp] theorem next_mem : m.next.mem = m.mem := rfl
@[simp] theorem next_regs : m.next.regs = m.regs := rfl
@[simp] theorem next_store : m.next.store = m.store := rfl
@[simp] theorem next_upper : m.next.upper = m.upper := rfl
@[simp] theorem next_ip : m.next.ip = m.ip + 1 := rfl

@[simp] theorem set_halt (d v) : (m.set d v).halt = m.halt := rfl
@[simp] theorem set_error (d v) : (m.set d v).error = m.error := rfl
@[simp] theorem set_mem (d v) : (m.set d v).mem = m.mem := rfl
@[simp] theorem set_regs (d v) : (m.set d v).regs = m.regs.write d v := rfl
@[simp] theorem set_store (d v) : (m.set d v).store = m.store := rfl
@[simp] theorem set_upper (d v) : (m.set d v).upper = m.upper := rfl
@[simp] theorem set_ip (d v) : (m.set d v).ip = m.ip + 1 := rfl

/-! ## The kinds of words -/

variable {m w}

theorem opclass_of_loadWidth {op : BitVec 8} {n : Nat} (h : loadWidth op = some n) :
    opclassOf op = opcLdx := by
  unfold loadWidth at h
  split_ifs at h with h1 h2 h3 h4
  · rw [h1]; decide
  · rw [h2]; decide
  · rw [h3]; decide
  · rw [h4]; decide

theorem load_cases :
    m.load w = m.fail ∨ ∃ n v, loadWidth (opcodeOf w) = some n ∧ m.load w = m.set (dstOf w) v := by
  unfold load
  cases h : loadWidth (opcodeOf w) with
  | none => exact Or.inl rfl
  | some n => exact Or.inr ⟨n, _, rfl, rfl⟩

theorem arith_cases (m : Machine) (w : BitVec 64) (div : Option DivRequest)
    (shift : Option ShiftRequest) (keep : BitVec 64 → BitVec 64) (res : Option (BitVec 64)) :
    (∃ v, m.arith w div shift keep res = m.set (dstOf w) v)
    ∨ m.arith w div shift keep res = m.fail
    ∨ m.arith w div shift keep res = { m with regs := m.regs.write (dstOf w) 0 }.fail := by
  unfold arith
  cases div with
  | some q =>
      dsimp only
      split_ifs
      · exact Or.inr (Or.inl rfl)
      · exact Or.inr (Or.inr rfl)
      · exact Or.inl ⟨_, rfl⟩
  | none =>
      cases shift with
      | some q => exact Or.inl ⟨_, rfl⟩
      | none =>
          cases res with
          | some v => exact Or.inl ⟨_, rfl⟩
          | none => exact Or.inr (Or.inl rfl)

theorem storeTo_cases (m : Machine) (w : BitVec 64) (arm : Option (BitVec 4 × BitVec 64)) :
    m.storeTo w arm = m.fail ∨ ∃ mem, m.storeTo w arm = { m with mem := mem }.next := by
  unfold storeTo
  cases arm with
  | none => exact Or.inl rfl
  | some a => exact Or.inr ⟨_, rfl⟩

theorem callOut_cases :
    (∃ st v, m.callOut w = { m with store := st }.set 0 v)
    ∨ ∃ st, m.callOut w = { m with store := st }.fail := by
  unfold callOut
  dsimp only
  split_ifs
  · exact Or.inl ⟨_, _, rfl⟩
  · exact Or.inr ⟨_, rfl⟩

/-- The word is a conditional or unconditional jump, and the jump is taken. -/
def taken (m : Machine) (w : BitVec 64) : Bool :=
  jmpArm (opcodeOf w) (m.regs.read (dstOf w)) (m.regs.read (srcOf w)) (immediateOf w) == some true

theorem jump_cases (hcall : opcodeOf w ≠ ebpfOpCall) :
    m.jump w = { m with halt := true } ∨ m.jump w = m.fail
    ∨ (m.jump w = m.next ∧ m.taken w = false)
    ∨ (m.jump w = { m with ip := m.target w } ∧ m.taken w = true) := by
  unfold jump taken
  rw [if_neg hcall]
  split_ifs
  · exact Or.inl rfl
  · cases jmpArm (opcodeOf w) (m.regs.read (dstOf w)) (m.regs.read (srcOf w)) (immediateOf w) with
    | none => exact Or.inr (Or.inl rfl)
    | some b =>
        cases b
        · exact Or.inr (Or.inr (Or.inl ⟨rfl, rfl⟩))
        · exact Or.inr (Or.inr (Or.inr ⟨rfl, rfl⟩))

/-! ## `dispatch` by opcode class -/

theorem dispatch_alu (halu : isAlu w) :
    m.dispatch w = m.arith w (m.aluWork w).div (m.aluWork w).shift (m.aluWork w).keep
      (m.aluWork w).res := by
  rcases halu with hcls | hcls <;> simp [Machine.dispatch, hcls, opc_ne, Machine.aluWork]

theorem dispatch_ldx (h : opclassOf (opcodeOf w) = opcLdx) :
    m.dispatch w = m.load w := by
  simp [Machine.dispatch, h, opc_ne]

/-- A load sets its register to the bytes at its address. -/
theorem dispatch_load {n : Nat} (h : loadWidth (opcodeOf w) = some n) :
    m.dispatch w = m.set (dstOf w) (loadLE 64 m.mem (m.loadAddress w) n) := by
  rw [dispatch_ldx (opclass_of_loadWidth h), load, h]

theorem dispatch_st (h : opclassOf (opcodeOf w) = opcSt) :
    m.dispatch w = m.storeTo w (stArm (opcodeOf w) (immediateOf w)) := by
  simp [Machine.dispatch, h, opc_ne]

theorem dispatch_stx (h : opclassOf (opcodeOf w) = opcStx) :
    m.dispatch w = m.storeTo w (stxArm (opcodeOf w) (m.regs.read (srcOf w))) := by
  simp [Machine.dispatch, h, opc_ne]

theorem dispatch_jmp (h : opclassOf (opcodeOf w) = opcJmp) :
    m.dispatch w = m.jump w := by
  simp [Machine.dispatch, h, opc_ne]

theorem dispatch_res (h : opclassOf (opcodeOf w) = opcRes) :
    m.dispatch w = m.fail := by
  simp [Machine.dispatch, h, opc_ne]

theorem dispatch_ld (h : opclassOf (opcodeOf w) = opcLd) :
    m.dispatch w = if opcodeOf w = ebpfOpLddw then
        { m with upper := some (dstOf w) }.set (dstOf w) ((immediateOf w).setWidth 64)
      else m.fail := by
  simp [Machine.dispatch, h]

/-- **All that a word which starts an instruction can do.** -/
inductive Outcome (m : Machine) (w : BitVec 64) : Machine → Prop
  | stop (m' : Machine) (halt : m'.halt = true) (mem : m'.mem = m.mem)
      (store : opcodeOf w ≠ ebpfOpCall → m'.store = m.store) : Outcome m w m'
  | set (v : BitVec 64) (ld : opclassOf (opcodeOf w) ≠ opcLd)
      (jmp : opclassOf (opcodeOf w) ≠ opcJmp) : Outcome m w (m.set (dstOf w) v)
  | lower (op : opcodeOf w = ebpfOpLddw) : Outcome m w
      ({ m with upper := some (dstOf w) }.set (dstOf w) ((immediateOf w).setWidth 64))
  | store (mem : BitVec 11 → BitVec 8)
      (cls : opclassOf (opcodeOf w) = opcSt ∨ opclassOf (opcodeOf w) = opcStx) :
      Outcome m w ({ m with mem := mem }.next)
  | call (op : opcodeOf w = ebpfOpCall) (st : CallStore) (v : BitVec 64) :
      Outcome m w ({ m with store := st }.set 0 v)
  | fall (cls : opclassOf (opcodeOf w) = opcJmp) (op : opcodeOf w ≠ ebpfOpCall)
      (untaken : m.taken w = false) : Outcome m w m.next
  | jump (cls : opclassOf (opcodeOf w) = opcJmp) (op : opcodeOf w ≠ ebpfOpCall)
      (taken : m.taken w = true) : Outcome m w { m with ip := m.target w }

theorem outcome_fail : Outcome m w m.fail := Outcome.stop _ rfl rfl (fun _ => rfl)

theorem outcome_arith {div : Option DivRequest} {shift : Option ShiftRequest}
    {keep : BitVec 64 → BitVec 64} {res : Option (BitVec 64)}
    (ld : opclassOf (opcodeOf w) ≠ opcLd) (jmp : opclassOf (opcodeOf w) ≠ opcJmp) :
    Outcome m w (m.arith w div shift keep res) := by
  rcases arith_cases m w div shift keep res with ⟨v, h⟩ | h | h <;> rw [h]
  · exact Outcome.set v ld jmp
  · exact outcome_fail
  · exact Outcome.stop _ rfl rfl (fun _ => rfl)

theorem outcome_storeTo {arm : Option (BitVec 4 × BitVec 64)}
    (cls : opclassOf (opcodeOf w) = opcSt ∨ opclassOf (opcodeOf w) = opcStx) :
    Outcome m w (m.storeTo w arm) := by
  rcases storeTo_cases m w arm with h | ⟨mem, h⟩ <;> rw [h]
  · exact outcome_fail
  · exact Outcome.store mem cls

theorem outcome_jump (cls : opclassOf (opcodeOf w) = opcJmp) : Outcome m w (m.jump w) := by
  by_cases hcall : opcodeOf w = ebpfOpCall
  · rw [jump, if_pos hcall]
    rcases callOut_cases (m := m) (w := w) with ⟨st, v, h⟩ | ⟨st, h⟩ <;> rw [h]
    · exact Outcome.call hcall st v
    · exact Outcome.stop _ rfl rfl (fun hne => absurd hcall hne)
  · rcases jump_cases (m := m) (w := w) hcall with h | h | ⟨h, ht⟩ | ⟨h, ht⟩ <;> rw [h]
    · exact Outcome.stop _ rfl rfl (fun _ => rfl)
    · exact outcome_fail
    · exact Outcome.fall cls hcall ht
    · exact Outcome.jump cls hcall ht

theorem dispatch_outcome (m : Machine) (w : BitVec 64) : Outcome m w (m.dispatch w) := by
  rcases opclass_cases (opcodeOf w) with hc | hc | hc | hc | hc | hc | hc | hc
  · rw [dispatch_ld hc]
    split_ifs with hop
    · exact Outcome.lower hop
    · exact outcome_fail
  · rw [dispatch_ldx hc]
    rcases load_cases (m := m) (w := w) with h | ⟨n, v, _, h⟩ <;> rw [h]
    · exact outcome_fail
    · exact Outcome.set v (by rw [hc]; decide) (by rw [hc]; decide)
  · rw [dispatch_st hc]
    exact outcome_storeTo (Or.inl hc)
  · rw [dispatch_stx hc]
    exact outcome_storeTo (Or.inr hc)
  · rw [dispatch_alu (Or.inl hc)]
    exact outcome_arith (by rw [hc]; decide) (by rw [hc]; decide)
  · rw [dispatch_jmp hc]
    exact outcome_jump hc
  · rw [dispatch_res hc]
    exact outcome_fail
  · rw [dispatch_alu (Or.inr hc)]
    exact outcome_arith (by rw [hc]; decide) (by rw [hc]; decide)

/-! ## `exec` -/

theorem exec_of_halt (h : m.halt = true) : m.exec w = m := by
  rw [exec, if_pos h]

theorem exec_of_rejects (hrun : m.halt = false) (h : m.rejects w = true) : m.exec w = m.fail := by
  simp [exec, hrun, h]

theorem exec_of_upper {d : BitVec 4} (hrun : m.halt = false) (h : m.rejects w = false)
    (hu : m.upper = some d) : m.exec w = m.joinUpper d w := by
  simp [exec, hrun, h, hu]

theorem exec_of_accepted (hrun : m.halt = false) (h : m.rejects w = false)
    (hu : m.upper = none) : m.exec w = m.dispatch w := by
  simp [exec, hrun, h, hu]

/-- A machine that a word leaves running was running, and accepted the word. -/
theorem running_of_exec (hh : (m.exec w).halt = false) :
    m.halt = false ∧ m.rejects w = false := by
  have hrun : m.halt = false := by
    by_contra hc
    rw [exec_of_halt (by simpa using hc)] at hh
    exact hc hh
  refine ⟨hrun, ?_⟩
  by_contra hc
  rw [exec_of_rejects hrun (by simpa using hc)] at hh
  cases hh

/-- After a word that leaves the machine running, `upper` is set exactly if the word was the
first of an `LDDW`. -/
theorem exec_upper (hh : (m.exec w).halt = false) :
    (m.exec w).upper.isSome = (!m.upper.isSome && opcodeOf w == ebpfOpLddw) := by
  obtain ⟨hrun, hacc⟩ := running_of_exec hh
  cases hu : m.upper with
  | some d =>
      rw [exec_of_upper hrun hacc hu]
      rfl
  | none =>
      have hlddw : opclassOf (opcodeOf w) ≠ opcLd → (opcodeOf w == ebpfOpLddw) = false := by
        intro hne
        rw [beq_eq_false_iff_ne]
        intro heq
        rw [heq] at hne
        exact hne (by decide)
      rw [exec_of_accepted hrun hacc hu] at hh ⊢
      have ho := dispatch_outcome m w
      generalize m.dispatch w = m' at hh ho
      cases ho with
      | stop _ halt => rw [halt] at hh; cases hh
      | set v ld => simp [hu, hlddw ld]
      | lower op => simp [op]
      | store mem cls =>
          rw [hlddw (by rcases cls with hc | hc <;> rw [hc] <;> decide)]
          simp [hu]
      | call op => simp [hu, op]; decide
      | fall cls => simp [hu, hlddw (by rw [cls]; decide)]
      | jump cls => simp [hu, hlddw (by rw [cls]; decide)]

/-- Every entry of the jump table is of the jump class. -/
theorem jmpArm_none {op : BitVec 8} {d s : BitVec 64} {imm : BitVec 32}
    (hop : opclassOf op ≠ opcJmp) : jmpArm op d s imm = none := by
  have h : ∀ o, opclassOf o = opcJmp → ¬ op = o := by
    rintro o ho rfl
    exact hop ho
  simp only [jmpArm, h ebpfOpJa (by decide), h ebpfOpJeqImm (by decide), h ebpfOpJeqReg (by decide),
    h ebpfOpJgtImm (by decide), h ebpfOpJgtReg (by decide), h ebpfOpJgeImm (by decide),
    h ebpfOpJgeReg (by decide), h ebpfOpJsetImm (by decide), h ebpfOpJsetReg (by decide),
    h ebpfOpJneImm (by decide), h ebpfOpJneReg (by decide), h ebpfOpJsgtImm (by decide),
    h ebpfOpJsgtReg (by decide), h ebpfOpJsgeImm (by decide), h ebpfOpJsgeReg (by decide),
    h ebpfOpJltImm (by decide), h ebpfOpJltReg (by decide), h ebpfOpJleImm (by decide),
    h ebpfOpJleReg (by decide), h ebpfOpJsltImm (by decide), h ebpfOpJsltReg (by decide),
    h ebpfOpJsleImm (by decide), h ebpfOpJsleReg (by decide), if_false]

/-- No word of another class is a taken jump. -/
theorem taken_false (h : opclassOf (opcodeOf w) ≠ opcJmp) : m.taken w = false := by
  unfold taken
  rw [jmpArm_none h]
  rfl

/-- **Where the machine goes after a word that does not stop it.** -/
theorem exec_ip (hh : (m.exec w).halt = false) (hu : m.upper = none) :
    (m.exec w).ip = if m.taken w then m.target w else m.ip + 1 := by
  obtain ⟨hrun, hacc⟩ := running_of_exec hh
  rw [exec_of_accepted hrun hacc hu] at hh ⊢
  have ho := dispatch_outcome m w
  generalize m.dispatch w = m' at hh ho
  cases ho with
  | stop _ halt => rw [halt] at hh; cases hh
  | set v ld jmp => rw [taken_false jmp]; rfl
  | lower op => rw [taken_false (by rw [op]; decide)]; rfl
  | store mem cls => rw [taken_false (by rcases cls with hc | hc <;> rw [hc] <;> decide)]; rfl
  | call op =>
      have : m.taken w = false := by
        unfold taken
        rw [op]
        rfl
      rw [this]
      rfl
  | fall cls op untaken => rw [untaken]; rfl
  | jump cls op taken => rw [taken]; rfl

/-- The second slot of an `LDDW` is followed by the word after it. -/
theorem exec_ip_upper {d : BitVec 4} (hh : (m.exec w).halt = false) (hu : m.upper = some d) :
    (m.exec w).ip = m.ip + 1 := by
  obtain ⟨hrun, hacc⟩ := running_of_exec hh
  rw [exec_of_upper hrun hacc hu]
  rfl

end Machine

end VeBpf
