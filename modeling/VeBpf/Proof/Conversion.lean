import VeBpf.Proof.Blocks

/-!
# The converter preserves what filters compute

The blocks lie one behind the other, and a jump that counted blocks counts
instructions once it has been adjusted. So the converted filter computes what the
interpreter computes on `insns.map asConverted`, and on `insns` if each of them is
`Kept`.
-/

namespace VeBpf

open Cbpf Expansion

/-! ## The layout of a converted program -/

namespace C2e

open Attempt

variable {checks : Bool} {insns : List BpfInsn} {insn : BpfInsn} {code : List Insn}
  {prog : List (List Insn)} {i j : Nat} {b : List Insn} {e e' : Insn}

/-- The blocks, and the program that their instructions make up once the jumps are set. -/
structure Layout (checks : Bool) (insns : List BpfInsn) (prog : List (List Insn))
    (code : List Insn) : Prop where
  head : prog[0]? = some init
  length : prog.length = insns.length + 1
  block : ∀ {i insn}, insns[i]? = some insn → ∃ b, prog[i + 1]? = some b ∧ block checks insn = .ok b
  placed : ∀ {i b j e}, prog[i]? = some b → b[j]? = some e →
    ∃ e', code[start prog i + j]? = some e' ∧ adjust checks (insnCount prog) i j e = .ok e'
  start_le : ∀ i, start prog i ≤ code.length
  total : start prog prog.length = code.length
  ne_nil : ∀ {i : Nat} {b}, prog[i]? = some b → b ≠ []

theorem insnCount_eq (prog : List (List Insn)) {i : Nat} (h : i ≤ prog.length) :
    (insnCount prog)[i]? = some (start prog i) := by
  have hscan : ∀ (prog : List (List Insn)) (n i : Nat), i ≤ prog.length →
      (prog.scanl (fun count insns => insns.length + count) n)[i]? = some (n + start prog i) := by
    intro prog
    induction prog with
    | nil =>
        intro n i hi
        obtain rfl : i = 0 := Nat.le_zero.mp hi
        rfl
    | cons b prog ih =>
        intro n i hi
        cases i with
        | zero => simp [start_zero]
        | succ i =>
            rw [List.scanl_cons, List.getElem?_cons_succ, ih _ i (by simpa using hi), start_cons]
            congr 1
            omega
  rw [insnCount, hscan prog 0 i h, Nat.zero_add]

theorem insnCount_none (prog : List (List Insn)) {i : Nat} (h : prog.length < i) :
    (insnCount prog)[i]? = none := by
  rw [insnCount, List.getElem?_eq_none_iff, List.length_scanl]
  omega

/-- `start` depends on the lengths of the blocks only. -/
theorem start_congr {prog p : List (List Insn)}
    (h : List.Forall₂ (fun b b' : List Insn => b.length = b'.length) prog p) (i : Nat) :
    start prog i = start p i := by
  have hmap : prog.map List.length = p.map List.length := by
    induction h with
    | nil => rfl
    | cons hb _ ih => rw [List.map_cons, List.map_cons, hb, ih]
  rw [start, start, List.map_take, List.map_take, hmap]

/-! ### What a conversion can contain -/

/-- The instructions that blocks are made of, but for jumps and divisions by constants. -/
inductive Straight : Insn → Prop
  | alu (op : AluOp) (r : Filter.Acc) (k : BitVec 32) (hdiv : op.divides = false) :
      Straight ⟨op.opcode opcAlu false, r.reg, 0, 0, k⟩
  | aluReg (op : AluOp) (r q : Filter.Acc) :
      Straight ⟨op.opcode opcAlu true, r.reg, q.reg, 0, 0⟩
  | shift (op : ShiftOp) (r : Filter.Acc) (k : BitVec 32) :
      Straight ⟨op.opcode opcAlu false, r.reg, 0, 0, k⟩
  | shiftReg (op : ShiftOp) (r q : Filter.Acc) :
      Straight ⟨op.opcode opcAlu true, r.reg, q.reg, 0, 0⟩
  | load (op : BitVec 8) (n : Nat) (r : Filter.Acc) (base : BitVec 4) (off : BitVec 16)
      (hop : loadWidth op = some n) (hn : n ≤ 4) (hbase : base = r1 ∨ base = regTmp ∨ base = r10) :
      Straight ⟨op, r.reg, base, off, 0⟩
  | store (r : Filter.Acc) (off : BitVec 16) : Straight ⟨ebpfOpStxw, r10, r.reg, off, 0⟩
  | packet : Straight ⟨ebpfOpMov64Reg, regTmp, r1, 0, 0⟩
  | packetX : Straight ⟨ebpfOpAdd64Reg, regTmp, regX, 0, 0⟩
  | be (n : Nat) (hn : n = 2 ∨ n = 4) : Straight ⟨ebpfOpBe, regA, 0, 0, BitVec.ofNat 32 (8 * n)⟩
  | exit : Straight exit

/-- The conditional jumps of a block. -/
inductive Compares (off : BitVec 16) : Insn → Prop
  | jmp (op : JumpOp) (k : BitVec 32) (hop : op.signed = false) :
      Compares off ⟨op.opcode false, regA, 0, off, k⟩
  | jmpReg (op : JumpOp) (hop : op.signed = false) :
      Compares off ⟨op.opcode true, regX, r0, off, 0⟩

/-- The instructions that blocks are made of, whatever the classic program. -/
inductive Emitted : Insn → Prop
  | straight {e : Insn} (h : Straight e) : Emitted e
  | divide (op : AluOp) (k : BitVec 32) (hdiv : op.divides = true) :
      Emitted ⟨op.opcode opcAlu false, regA, 0, 0, k⟩
  | ja (off : BitVec 16) : Emitted ⟨ebpfOpJa, 0, 0, off, 0⟩
  | compare {e : Insn} (off : BitVec 16) (h : Compares off e) : Emitted e

/-- Instructions name registers that exist, and only a store names the frame pointer as its
destination. -/
theorem Emitted.registers (h : Emitted e) :
    e.src.toNat ≤ 10 ∧ (e.dst.toNat ≤ 9 ∨ e.opcode = ebpfOpStxw ∧ e.dst = r10) := by
  have hacc : ∀ r : Filter.Acc, r.reg.toNat ≤ 9 := fun r => by cases r <;> decide
  have hsrc : ∀ r : Filter.Acc, r.reg.toNat ≤ 10 := fun r => Nat.le_succ_of_le (hacc r)
  have hlow : ∀ {r : BitVec 4}, r = r0 ∨ r = r1 ∨ r = regX ∨ r = regTmp → r.toNat ≤ 9 := by
    rintro r (rfl | rfl | rfl | rfl) <;> decide
  have hbase : ∀ {r : BitVec 4}, r = r0 ∨ r = r1 ∨ r = regX ∨ r = regTmp → r.toNat ≤ 10 :=
    fun hr => Nat.le_succ_of_le (hlow hr)
  cases h with
  | straight h =>
      cases h with
      | alu op r | shift op r => exact ⟨hbase (Or.inl rfl), Or.inl (hacc r)⟩
      | aluReg op r q | shiftReg op r q => exact ⟨hsrc q, Or.inl (hacc r)⟩
      | load op n r base off hop hn hb =>
          refine ⟨?_, Or.inl (hacc r)⟩
          rcases hb with rfl | rfl | rfl
          · exact hbase (by simp)
          · exact hbase (by simp)
          · exact Nat.le_refl 10
      | store r => exact ⟨hsrc r, Or.inr ⟨rfl, rfl⟩⟩
      | packet => exact ⟨hbase (by simp), Or.inl (hlow (by simp))⟩
      | packetX => exact ⟨hbase (by simp), Or.inl (hlow (by simp))⟩
      | be | exit => exact ⟨hbase (Or.inl rfl), Or.inl (hlow (Or.inl rfl))⟩
  | divide | ja => exact ⟨hbase (Or.inl rfl), Or.inl (hlow (Or.inl rfl))⟩
  | compare off h =>
      cases h with
      | jmp => exact ⟨hbase (Or.inl rfl), Or.inl (hlow (Or.inl rfl))⟩
      | jmpReg => exact ⟨hbase (Or.inl rfl), Or.inl (hlow (by simp))⟩

/-- A block has an instruction, and only such ones. -/
def Emits (P : Insn → Prop) (b : List Insn) : Prop := b ≠ [] ∧ ∀ e ∈ b, P e

variable {P Q : Insn → Prop}

theorem Emits.one (h : P e) : Emits P [e] := ⟨nofun, by simpa using h⟩

theorem Emits.cons (h : P e) (hb : Emits P b) : Emits P (e :: b) :=
  ⟨nofun, List.forall_mem_cons.mpr ⟨h, hb.2⟩⟩

theorem Emits.mono (hpq : ∀ e, P e → Q e) (h : Emits P b) : Emits Q b :=
  ⟨h.1, fun e he => hpq e (h.2 e he)⟩

theorem ret_emits (h : ret insn = .ok b) : Emits Straight b := by
  rcases ite_eq_iff.mp h with ⟨-, h⟩ | ⟨-, h⟩
  · obtain rfl := Except.ok.inj h
    exact Emits.one .exit
  rcases ite_eq_iff.mp h with ⟨-, h⟩ | ⟨-, h⟩
  · obtain rfl := Except.ok.inj h
    exact Emits.cons (.alu .mov .a insn.k rfl) (Emits.one .exit)
  · cases h

/-- The load of a scratch word. -/
theorem fetch_emits (r : Filter.Acc)
    (h : (do let off ← memOffset checks insn.k
             return [⟨ebpfOpLdxw, r.reg, r10, off, 0⟩]) = Except.ok b) : Emits Straight b := by
  obtain ⟨off, -, h⟩ := bind_ok.mp h
  obtain rfl := pure_ok.mp h
  exact Emits.one (.load _ 4 r r10 off rfl (Nat.le_refl 4) (Or.inr (Or.inr rfl)))

theorem store_emits (r : Filter.Acc) (h : store checks r.reg insn = .ok b) :
    Emits Straight b := by
  obtain ⟨off, -, h⟩ := bind_ok.mp h
  obtain rfl := pure_ok.mp h
  exact Emits.one (.store r off)

theorem ld_emits (h : ld checks insn = .ok b) : Emits Straight b := by
  have hpacket : ∀ op n, loadWidth op = some n → n ≤ 4 →
      Straight ⟨op, regA, r1, insn.k.setWidth 16, 0⟩ :=
    fun op n hop hn => .load op n .a r1 _ hop hn (Or.inl rfl)
  have hat : ∀ op n b, loadWidth op = some n → n ≤ 4 → Emits Straight b →
      Emits Straight (packetAtX ++ ⟨op, regA, regTmp, insn.k.setWidth 16, 0⟩ :: b) :=
    fun op n b hop hn hb =>
      Emits.cons .packet (Emits.cons .packetX
        (Emits.cons (.load op n .a regTmp _ hop hn (Or.inr (Or.inl rfl))) hb))
  rcases ite_eq_iff.mp h with ⟨-, h⟩ | ⟨-, h⟩
  · obtain rfl := Except.ok.inj h
    exact Emits.cons (hpacket _ 4 rfl (by omega)) (Emits.one (.be 4 (Or.inr rfl)))
  rcases ite_eq_iff.mp h with ⟨-, h⟩ | ⟨-, h⟩
  · obtain rfl := Except.ok.inj h
    exact Emits.cons (hpacket _ 2 rfl (by omega)) (Emits.one (.be 2 (Or.inl rfl)))
  rcases ite_eq_iff.mp h with ⟨-, h⟩ | ⟨-, h⟩
  · obtain rfl := Except.ok.inj h
    exact Emits.one (hpacket _ 1 rfl (by omega))
  rcases ite_eq_iff.mp h with ⟨-, h⟩ | ⟨-, h⟩
  · obtain rfl := Except.ok.inj h
    exact hat _ 4 _ rfl (by omega) (Emits.one (.be 4 (Or.inr rfl)))
  rcases ite_eq_iff.mp h with ⟨-, h⟩ | ⟨-, h⟩
  · obtain rfl := Except.ok.inj h
    exact hat _ 2 _ rfl (by omega) (Emits.one (.be 2 (Or.inl rfl)))
  rcases ite_eq_iff.mp h with ⟨-, h⟩ | ⟨-, h⟩
  · obtain rfl := Except.ok.inj h
    exact Emits.cons .packet (Emits.cons .packetX
      (Emits.one (.load ebpfOpLdxb 1 .a regTmp _ rfl (by omega) (Or.inr (Or.inl rfl)))))
  rcases ite_eq_iff.mp h with ⟨-, h⟩ | ⟨-, h⟩
  · cases h
  rcases ite_eq_iff.mp h with ⟨-, h⟩ | ⟨-, h⟩
  · obtain rfl := Except.ok.inj h
    exact Emits.one (.alu .mov .a insn.k rfl)
  rcases ite_eq_iff.mp h with ⟨-, h⟩ | ⟨-, h⟩
  · exact fetch_emits .a h
  · cases h

theorem ldx_emits (h : ldx checks insn = .ok b) : Emits Straight b := by
  rcases ite_eq_iff.mp h with ⟨-, h⟩ | ⟨-, h⟩
  · cases h
  rcases ite_eq_iff.mp h with ⟨-, h⟩ | ⟨-, h⟩
  · obtain rfl := Except.ok.inj h
    exact Emits.cons (.load ebpfOpLdxb 1 .x r1 _ rfl (by omega) (Or.inl rfl))
      (Emits.cons (.alu .and .x _ rfl) (Emits.one (.shift .lsh .x _)))
  rcases ite_eq_iff.mp h with ⟨-, h⟩ | ⟨-, h⟩
  · obtain rfl := Except.ok.inj h
    exact Emits.one (.alu .mov .x insn.k rfl)
  rcases ite_eq_iff.mp h with ⟨-, h⟩ | ⟨-, h⟩
  · exact fetch_emits .x h
  · cases h

/-- The second jump of a block is needed. -/
def JumpsTwice (insn : BpfInsn) : Prop := bpfSrc insn.code = bpfX ∨ insn.jf ≠ 0

/-- **The block of a jump.** -/
theorem jmp_cases (h : jmp insn = .ok b) :
    (bpfOp insn.code = bpfJa ∧ b = [⟨ebpfOpJa, 0, 0, insn.k.setWidth 16, 0⟩])
      ∨ (bpfOp insn.code ≠ bpfJa ∧ ∃ e t, b = e :: t ∧ Compares (insn.jt.setWidth 16) e
        ∧ (JumpsTwice insn ∧ t = [⟨ebpfOpJa, 0, 0, insn.jf.setWidth 16, 0⟩]
          ∨ ¬ JumpsTwice insn ∧ t = [])) := by
  rcases ite_eq_iff.mp h with ⟨hja, h⟩ | ⟨hja, h⟩
  · exact Or.inl ⟨hja, (Except.ok.inj h).symm⟩
  refine Or.inr ⟨hja, ?_⟩
  rcases ite_eq_iff.mp h with ⟨hk, h⟩ | ⟨-, h⟩
  · obtain ⟨opc, hopc, h⟩ := bind_ok.mp h
    obtain rfl := pure_ok.mp h
    rcases Simple.jmpOpc_cases (bpfOp insn.code) with ⟨o, hs, hopk, -, -⟩ | ⟨hopk, -, -⟩
    · obtain rfl := Except.ok.inj (hopk.symm.trans hopc)
      refine ⟨_, _, rfl, .jmp o insn.k hs, ?_⟩
      split_ifs with hjf
      · exact Or.inl ⟨Or.inr hjf, rfl⟩
      · refine Or.inr ⟨?_, rfl⟩
        rintro (hx | hjf')
        · rw [hk] at hx
          exact absurd hx (by decide)
        · exact hjf hjf'
    · cases hopk.symm.trans hopc
  rcases ite_eq_iff.mp h with ⟨hx, h⟩ | ⟨-, h⟩
  · obtain ⟨opc, hopc, h⟩ := bind_ok.mp h
    obtain rfl := pure_ok.mp h
    rcases Simple.jmpOpc_cases (bpfOp insn.code) with ⟨o, hs, -, hopx, -⟩ | ⟨-, hopx, -⟩
    · obtain rfl := Except.ok.inj (hopx.symm.trans hopc)
      exact ⟨_, _, rfl, .jmpReg o hs, Or.inl ⟨Or.inl hx, rfl⟩⟩
    · cases hopx.symm.trans hopc
  · cases h

theorem jmp_emits (h : jmp insn = .ok b) : Emits Emitted b := by
  obtain ⟨-, rfl⟩ | ⟨-, e, t, rfl, he, ⟨-, rfl⟩ | ⟨-, rfl⟩⟩ := jmp_cases h
  · exact Emits.one (.ja _)
  · exact Emits.cons (.compare _ he) (Emits.one (.ja _))
  · exact Emits.one (.compare _ he)

/-- The operation of an arithmetic opcode, in both forms of the block. -/
theorem aluOpc_cases (op : BitVec 16) :
    (∃ o : AluOp, aluOpcK op = .ok (o.opcode opcAlu false)
        ∧ aluOpcX op = .ok (o.opcode opcAlu true)
        ∧ (o.divides = true ↔ op = bpfDiv ∨ op = bpfMod))
      ∨ (∃ o : ShiftOp, aluOpcK op = .ok (o.opcode opcAlu false)
        ∧ aluOpcX op = .ok (o.opcode opcAlu true) ∧ ¬ (op = bpfDiv ∨ op = bpfMod))
      ∨ (aluOpcK op = fail .invalidAluOp ∧ aluOpcX op = fail .invalidAluOp) := by
  by_cases hadd : op = bpfAdd
  · exact Or.inl ⟨.add, by rw [hadd]; rfl, by rw [hadd]; rfl, by rw [hadd]; decide⟩
  by_cases hsub : op = bpfSub
  · exact Or.inl ⟨.sub, by rw [hsub]; rfl, by rw [hsub]; rfl, by rw [hsub]; decide⟩
  by_cases hmul : op = bpfMul
  · exact Or.inl ⟨.mul, by rw [hmul]; rfl, by rw [hmul]; rfl, by rw [hmul]; decide⟩
  by_cases hdiv : op = bpfDiv
  · exact Or.inl ⟨.div, by rw [hdiv]; rfl, by rw [hdiv]; rfl, by rw [hdiv]; decide⟩
  by_cases hmod : op = bpfMod
  · exact Or.inl ⟨.mod, by rw [hmod]; rfl, by rw [hmod]; rfl, by rw [hmod]; decide⟩
  by_cases hand : op = bpfAnd
  · exact Or.inl ⟨.add, by rw [hand]; rfl, by rw [hand]; rfl, by rw [hand]; decide⟩
  by_cases hor : op = bpfOr
  · exact Or.inl ⟨.or, by rw [hor]; rfl, by rw [hor]; rfl, by rw [hor]; decide⟩
  by_cases hxor : op = bpfXor
  · exact Or.inl ⟨.xor, by rw [hxor]; rfl, by rw [hxor]; rfl, by rw [hxor]; decide⟩
  by_cases hlsh : op = bpfLsh
  · exact Or.inr (Or.inl ⟨.lsh, by rw [hlsh]; rfl, by rw [hlsh]; rfl, by rw [hlsh]; decide⟩)
  by_cases hrsh : op = bpfRsh
  · exact Or.inr (Or.inl ⟨.rsh, by rw [hrsh]; rfl, by rw [hrsh]; rfl, by rw [hrsh]; decide⟩)
  · refine Or.inr (Or.inr ⟨?_, ?_⟩)
    · rw [aluOpcK, if_neg hadd, if_neg hsub, if_neg hmul, if_neg hdiv, if_neg hmod, if_neg hand,
        if_neg hor, if_neg hxor, if_neg hlsh, if_neg hrsh]
    · rw [aluOpcX, if_neg hadd, if_neg hsub, if_neg hmul, if_neg hdiv, if_neg hmod, if_neg hand,
        if_neg hor, if_neg hxor, if_neg hlsh, if_neg hrsh]

/-- The divisor is a constant. -/
def DividesByK (insn : BpfInsn) : Prop :=
  bpfSrc insn.code = bpfK ∧ (bpfOp insn.code = bpfDiv ∨ bpfOp insn.code = bpfMod)

/-- **The block of an arithmetic instruction.** -/
theorem alu_cases (h : alu insn = .ok b) :
    (¬ DividesByK insn ∧ ∃ e, b = [e] ∧ Straight e)
      ∨ (DividesByK insn ∧ ∃ op : AluOp, op.divides = true
        ∧ b = [⟨op.opcode opcAlu false, regA, 0, 0, insn.k⟩]) := by
  rcases ite_eq_iff.mp h with ⟨hneg, h⟩ | ⟨-, h⟩
  · obtain rfl := Except.ok.inj h
    refine Or.inl ⟨?_, _, rfl, .alu .neg .a 0 rfl⟩
    rintro ⟨-, hop⟩
    rw [hneg] at hop
    exact absurd hop (by decide)
  rcases ite_eq_iff.mp h with ⟨hk, h⟩ | ⟨hk, h⟩
  · obtain ⟨opc, hopc, h⟩ := bind_ok.mp h
    obtain rfl := pure_ok.mp h
    rcases aluOpc_cases (bpfOp insn.code) with ⟨o, ho, -, hdiv⟩ | ⟨o, ho, -, hno⟩ | ⟨ho, -⟩
    · obtain rfl := Except.ok.inj (ho.symm.trans hopc)
      cases hd : o.divides with
      | true => exact Or.inr ⟨⟨hk, hdiv.mp hd⟩, o, hd, rfl⟩
      | false =>
          refine Or.inl ⟨fun hc => ?_, _, rfl, .alu o .a insn.k hd⟩
          rw [hdiv.mpr hc.2] at hd
          cases hd
    · obtain rfl := Except.ok.inj (ho.symm.trans hopc)
      exact Or.inl ⟨fun hc => hno hc.2, _, rfl, .shift o .a insn.k⟩
    · cases ho.symm.trans hopc
  rcases ite_eq_iff.mp h with ⟨-, h⟩ | ⟨-, h⟩
  · refine Or.inl ⟨fun hc => hk hc.1, ?_⟩
    obtain ⟨opc, hopc, h⟩ := bind_ok.mp h
    obtain rfl := pure_ok.mp h
    rcases aluOpc_cases (bpfOp insn.code) with ⟨o, -, ho, -⟩ | ⟨o, -, ho, -⟩ | ⟨-, ho⟩
    · obtain rfl := Except.ok.inj (ho.symm.trans hopc)
      exact ⟨_, rfl, .aluReg o .a .x⟩
    · obtain rfl := Except.ok.inj (ho.symm.trans hopc)
      exact ⟨_, rfl, .shiftReg o .a .x⟩
    · cases ho.symm.trans hopc
  · cases h

theorem alu_emits (h : alu insn = .ok b) : Emits Emitted b := by
  obtain ⟨-, e, rfl, he⟩ | ⟨-, op, hdiv, rfl⟩ := alu_cases h
  · exact Emits.one (.straight he)
  · exact Emits.one (.divide op insn.k hdiv)

theorem misc_emits (h : misc insn = .ok b) : Emits Straight b := by
  rcases ite_eq_iff.mp h with ⟨-, h⟩ | ⟨-, h⟩
  · obtain rfl := Except.ok.inj h
    exact Emits.one (.aluReg .mov .x .a)
  rcases ite_eq_iff.mp h with ⟨-, h⟩ | ⟨-, h⟩
  · obtain rfl := Except.ok.inj h
    exact Emits.one (.aluReg .mov .a .x)
  · cases h

/-- **What a block is made of.** Only arithmetic divides, and only jumps jump. -/
theorem block_cases (h : block checks insn = .ok b) :
    (bpfClass insn.code = bpfJmp ∧ jmp insn = .ok b)
      ∨ (bpfClass insn.code = bpfAlu ∧ alu insn = .ok b)
      ∨ (bpfClass insn.code ≠ bpfJmp ∧ bpfClass insn.code ≠ bpfAlu ∧ Emits Straight b) := by
  have hother : ∀ {cls : BitVec 16}, bpfClass insn.code = cls → cls ≠ bpfJmp → cls ≠ bpfAlu →
      Emits Straight b → bpfClass insn.code ≠ bpfJmp ∧ bpfClass insn.code ≠ bpfAlu
        ∧ Emits Straight b := by
    rintro cls rfl hjmp halu hb
    exact ⟨hjmp, halu, hb⟩
  rcases ite_eq_iff.mp h with ⟨hc, h⟩ | ⟨-, h⟩
  · exact Or.inr (Or.inr (hother hc (by decide) (by decide) (ret_emits h)))
  rcases ite_eq_iff.mp h with ⟨hc, h⟩ | ⟨-, h⟩
  · exact Or.inr (Or.inr (hother hc (by decide) (by decide) (ld_emits h)))
  rcases ite_eq_iff.mp h with ⟨hc, h⟩ | ⟨-, h⟩
  · exact Or.inr (Or.inr (hother hc (by decide) (by decide) (ldx_emits h)))
  rcases ite_eq_iff.mp h with ⟨hc, h⟩ | ⟨-, h⟩
  · exact Or.inr (Or.inr (hother hc (by decide) (by decide) (store_emits .a h)))
  rcases ite_eq_iff.mp h with ⟨hc, h⟩ | ⟨-, h⟩
  · exact Or.inr (Or.inr (hother hc (by decide) (by decide) (store_emits .x h)))
  rcases ite_eq_iff.mp h with ⟨hc, h⟩ | ⟨-, h⟩
  · exact Or.inl ⟨hc, h⟩
  rcases ite_eq_iff.mp h with ⟨hc, h⟩ | ⟨-, h⟩
  · exact Or.inr (Or.inl ⟨hc, h⟩)
  rcases ite_eq_iff.mp h with ⟨hc, h⟩ | ⟨-, h⟩
  · exact Or.inr (Or.inr (hother hc (by decide) (by decide) (misc_emits h)))
  · cases h

theorem block_emits (h : block checks insn = .ok b) : Emits Emitted b := by
  obtain ⟨-, h⟩ | ⟨-, h⟩ | ⟨-, -, h⟩ := block_cases h
  · exact jmp_emits h
  · exact alu_emits h
  · exact h.mono fun _ => .straight

theorem init_straight : ∀ e ∈ init, Straight e := by
  rintro e he
  rcases List.mem_cons.mp he with rfl | he
  · exact .alu .mov .a 0 rfl
  · rw [List.mem_singleton.mp he]
    exact .alu .mov .x 0 rfl

/-- A jump is emitted with another offset than the block has. Nothing else changes. -/
theorem adjust_ok {count : List Nat} (h : adjust checks count i j e = .ok e') :
    ∃ d, e' = { e with offset := d } := by
  rcases ite_eq_iff.mp h with ⟨-, h⟩ | ⟨-, h⟩
  · obtain ⟨t₁, -, h⟩ := bind_ok.mp h
    obtain ⟨t₂, -, h⟩ := bind_ok.mp h
    cases ht : count[t₂]? with
    | none =>
        rw [ht] at h
        cases h
    | some target =>
        cases hi : count[i]? with
        | none =>
            rw [ht, hi] at h
            cases h
        | some here =>
            rw [ht, hi] at h
            obtain ⟨d₁, -, h⟩ := bind_ok.mp h
            obtain ⟨d₂, -, h⟩ := bind_ok.mp h
            obtain ⟨d₃, -, h⟩ := bind_ok.mp h
            exact ⟨d₃, (pure_ok.mp h).symm⟩
  · exact ⟨e.offset, (Except.ok.inj h).symm⟩

/-- **What a converted program is made of.** -/
theorem convert_emits (h : convert checks insns = .ok code) (he : e' ∈ code) :
    ∃ e d, Emitted e ∧ e' = { e with offset := d } := by
  obtain ⟨prog, hprog, h⟩ := bind_ok.mp h
  obtain ⟨p, hp, h⟩ := bind_ok.mp h
  obtain rfl := pure_ok.mp h
  obtain ⟨b', hb', he'⟩ := List.mem_flatten.mp he
  obtain ⟨⟨b, i⟩, hb, hblock⟩ := mem_of_forall₂ (mapM_ok.mp hp) hb'
  obtain ⟨⟨e, j⟩, hej, hadjust⟩ := mem_of_forall₂ (mapM_ok.mp hblock) he'
  obtain ⟨d, rfl⟩ := adjust_ok hadjust
  refine ⟨e, d, ?_, rfl⟩
  have hmem := List.fst_mem_of_mem_zipIdx hej
  rcases List.mem_cons.mp (List.fst_mem_of_mem_zipIdx hb) with hinit | hin
  · exact .straight (init_straight e (hinit ▸ hmem))
  · obtain ⟨insn, -, hb₀⟩ := mem_of_forall₂ (mapM_ok.mp hprog) hin
    exact (block_emits hb₀).2 e hmem

/-- **What a successful conversion has laid out.** -/
theorem exists_layout (h : convert checks insns = .ok code) :
    ∃ prog, Layout checks insns prog code := by
  obtain ⟨prog, hprog, h⟩ := bind_ok.mp h
  obtain ⟨p, hp, h⟩ := bind_ok.mp h
  obtain rfl := pure_ok.mp h
  have hblocks := mapM_ok.mp hprog
  have hemit := mapM_ok.mp hp
  -- the blocks of `p` are those of `init :: prog` with their jumps set
  have hget : ∀ {i b}, (init :: prog)[i]? = some b → ∃ b', p[i]? = some b' ∧
      List.Forall₂ (fun (x : Insn × Nat) e' =>
        adjust checks (insnCount (init :: prog)) i x.2 x.1 = .ok e') b.zipIdx b' := by
    intro i b hb
    have hzip : (init :: prog).zipIdx[i]? = some (b, i) := by
      rw [List.getElem?_zipIdx, hb]
      simp
    obtain ⟨b', hb', hmap⟩ := getElem?_of_forall₂ hemit hzip
    exact ⟨b', hb', mapM_ok.mp hmap⟩
  have hlengths : List.Forall₂ (fun b b' : List Insn => b.length = b'.length) (init :: prog) p := by
    rw [List.forall₂_iff_get]
    refine ⟨by simpa using hemit.length_eq, ?_⟩
    intro i h₁ h₂
    obtain ⟨b', hb', hall⟩ := hget (List.getElem?_eq_getElem h₁)
    have heq : p.get ⟨i, h₂⟩ = b' := by
      rw [List.getElem?_eq_getElem h₂] at hb'
      exact Option.some.inj hb'
    rw [heq]
    simpa using hall.length_eq
  have hstart := start_congr hlengths
  refine ⟨init :: prog, rfl, ?_, ?_, ?_, ?_, ?_, ?_⟩
  · rw [List.length_cons, hblocks.length_eq]
  · intro i insn hi
    exact getElem?_of_forall₂ hblocks hi
  · intro i b j e hb he
    obtain ⟨b', hb', hall⟩ := hget hb
    have hzip : b.zipIdx[j]? = some (e, j) := by
      rw [List.getElem?_zipIdx, he]
      simp
    obtain ⟨e', he', hadjust⟩ := getElem?_of_forall₂ hall hzip
    refine ⟨e', ?_, hadjust⟩
    rw [hstart, getElem?_flatten hb' (List.getElem?_eq_some_iff.mp he').1, he']
  · intro i
    rw [hstart]
    exact start_le_length p i
  · rw [hstart, hlengths.length_eq, start_of_length_le (Nat.le_refl _)]
  · intro i b hb
    cases i with
    | zero =>
        obtain rfl := Option.some.inj hb
        nofun
    | succ i =>
        rw [List.getElem?_cons_succ] at hb
        obtain ⟨hi, rfl⟩ := List.getElem?_eq_some_iff.mp hb
        have hblock := (List.forall₂_iff_get.mp hblocks).2 i (hblocks.length_eq ▸ hi) hi
        exact (block_emits hblock).1

namespace Layout

variable {f f' : Filter} {data : List (BitVec 8)} {v : BitVec 32}

theorem index_le (L : Layout checks insns prog code) (h : i ≤ prog.length) : i ≤ start prog i := by
  induction i with
  | zero => exact Nat.zero_le _
  | succ i ih =>
      have hb := List.getElem?_eq_getElem (l := prog) (i := i) (by omega)
      have hpos := List.length_pos_iff.mpr (L.ne_nil hb)
      rw [start_succ hb]
      have := ih (by omega)
      omega

theorem length_lt (L : Layout checks insns prog code) : insns.length < code.length := by
  have hle := L.index_le (Nat.le_refl prog.length)
  have hend := L.start_le prog.length
  have := L.length
  omega

/-! ### Running a block -/

/-- Instructions other than jumps stay as they are. -/
theorem straight (L : Layout checks insns prog code) (hb : prog[i]? = some b)
    (hs : ∀ op ∈ b.map Insn.opcode, 0x07#8 &&& op ≠ opcJmp)
    (ha : Along Filter.pc (Filter.Next data) b f f') (hpc : f.pc = start prog i) :
    f'.pc = start prog (i + 1)
      ∧ ∀ v, Filter.Returns code data f' v → Filter.Returns code data f v := by
  refine ⟨?_, fun v => Runs.along ha ?_⟩
  · rw [ha.pc_eq, hpc, start_succ hb]
  · intro j e he
    obtain ⟨e', hcode, hadjust⟩ := L.placed hb he
    have hop := hs e.opcode (List.mem_map_of_mem (List.mem_of_getElem? he))
    rw [adjust, if_neg hop] at hadjust
    rw [hpc, hcode, ← Except.ok.inj hadjust]

theorem distance {t h j : Nat} (ht : t < 2 ^ 15) (hle : h + j < 2 ^ 15) :
    (BitVec.ofNat 16 t - BitVec.ofNat 16 h - BitVec.ofNat 16 j - 1#16).toInt
      = (t : Int) - h - j - 1 := by
  have hnat : (BitVec.ofNat 16 t - BitVec.ofNat 16 h - BitVec.ofNat 16 j - 1#16).toNat
      = (t + 2 ^ 16 - h - j - 1) % 2 ^ 16 := by
    bv_omega
  rw [BitVec.toInt_eq_toNat_cond, hnat]
  split_ifs <;> omega

/-- **The distance of a jump**, which counted blocks, in instructions. -/
theorem jump_target (L : Layout checks insns prog code) (hcode : code.length < 2 ^ 15)
    (hb : prog[i]? = some b) (he : b[j]? = some e) (hop : 0x07#8 &&& e.opcode = opcJmp) :
    ∃ (t : Nat) (d : BitVec 16), (t : Int) = i + e.offset.toInt + 1 ∧ t ≤ prog.length
      ∧ code[start prog i + j]? = some { e with offset := d }
      ∧ d.toInt = (start prog t : Int) - start prog i - j - 1 := by
  obtain ⟨e', hplace, hadjust⟩ := L.placed hb he
  obtain ⟨hi, -⟩ := List.getElem?_eq_some_iff.mp hb
  obtain ⟨hj, -⟩ := List.getElem?_eq_some_iff.mp hplace
  have hindex := L.index_le hi.le
  have hext : (e.offset.signExtend 64).toInt = e.offset.toInt :=
    BitVec.toInt_signExtend_of_le (by omega)
  have hlow := e.offset.le_two_mul_toInt
  have hhigh := e.offset.two_mul_toInt_lt
  rw [BitVec.toInt_eq_toNat_cond] at hext
  rw [adjust, if_pos hop] at hadjust
  obtain ⟨t₁, ht₁, hadjust⟩ := bind_ok.mp hadjust
  obtain ⟨rfl, -⟩ := checked_ok ht₁
  obtain ⟨t₂, ht₂, hadjust⟩ := bind_ok.mp hadjust
  obtain ⟨rfl, -⟩ := checked_ok ht₂
  generalize ht : ((i + (e.offset.signExtend 64).toNat) % 2 ^ 64 + 1) % 2 ^ 64 = t at hadjust
  by_cases hin : t ≤ prog.length
  · rw [insnCount_eq prog hin, insnCount_eq prog hi.le] at hadjust
    obtain ⟨d₁, hd₁, hadjust⟩ := bind_ok.mp hadjust
    obtain ⟨rfl, -⟩ := checked_ok hd₁
    obtain ⟨d₂, hd₂, hadjust⟩ := bind_ok.mp hadjust
    obtain ⟨rfl, -⟩ := checked_ok hd₂
    obtain ⟨d₃, hd₃, hadjust⟩ := bind_ok.mp hadjust
    obtain ⟨rfl, -⟩ := checked_ok hd₃
    obtain rfl := pure_ok.mp hadjust
    have hend := L.start_le t
    refine ⟨t, _, ?_, hin, hplace, distance (by omega) (by omega)⟩
    have hprog := L.length
    have hlen := L.length_lt
    split_ifs at hext <;> omega
  · rw [insnCount_none prog (by omega)] at hadjust
    cases hadjust

/-- **A jump over blocks** is a jump over their instructions. -/
theorem jump_offset (L : Layout checks insns prog code) (hcode : code.length < 2 ^ 15)
    (hb : prog[i]? = some b) (he : b[j]? = some e) (hop : 0x07#8 &&& e.opcode = opcJmp)
    (hoff : e.offset.toNat < 2 ^ 15) :
    ∃ d : BitVec 16, code[start prog i + j]? = some { e with offset := d } ∧ d.toNat < 2 ^ 15
      ∧ start prog i + j + 1 + d.toNat = start prog (i + e.offset.toNat + 1) := by
  obtain ⟨t, d, ht, -, hplace, hd⟩ := L.jump_target hcode hb he hop
  obtain ⟨hj, -⟩ := List.getElem?_eq_some_iff.mp he
  have hnat : e.offset.toInt = e.offset.toNat := BitVec.toInt_eq_toNat_of_lt (by omega)
  obtain rfl : t = i + e.offset.toNat + 1 := by omega
  have hnext := start_succ hb
  have hmono : start prog (i + 1) ≤ start prog (i + e.offset.toNat + 1) := start_mono (by omega)
  have hdlt := d.isLt
  rw [BitVec.toInt_eq_toNat_cond] at hd
  refine ⟨d, hplace, ?_, ?_⟩ <;> split_ifs at hd <;> omega

theorem class_jumpOp (o : JumpOp) (reg : Bool) : 0x07#8 &&& o.opcode reg = opcJmp := by
  cases o <;> cases reg <;> decide

/-- A jump of a block, taken or not. -/
theorem jump (L : Layout checks insns prog code) (hcode : code.length < 2 ^ 15)
    (hb : prog[i]? = some b) (he : b[j]? = some e) (hop : 0x07#8 &&& e.opcode = opcJmp)
    (hoff : e.offset.toNat < 2 ^ 15) (hpc : f.pc = start prog i + j) (c : Bool)
    (hnext : ∀ d : BitVec 16, d.toNat < 2 ^ 15 → Filter.Next data { e with offset := d } f
      { f with pc := f.pc + 1 + if c then d.toNat else 0 })
    (hr : Filter.Returns code data
      { f with pc := if c then start prog (i + e.offset.toNat + 1) else f.pc + 1 } v) :
    Filter.Returns code data f v := by
  obtain ⟨d, hplace, hd, htarget⟩ := L.jump_offset hcode hb he hop hoff
  have hpc' : f.pc + 1 + (if c then d.toNat else 0)
      = if c then start prog (i + e.offset.toNat + 1) else f.pc + 1 := by
    cases c with
    | true => exact hpc ▸ htarget
    | false => rfl
  refine Runs.next (hpc ▸ hplace) (hnext d hd) ?_
  rw [hpc']
  exact hr

theorem ja (L : Layout checks insns prog code) (hcode : code.length < 2 ^ 15) {off : BitVec 16}
    (hb : prog[i]? = some b) (he : b[j]? = some ⟨ebpfOpJa, 0, 0, off, 0⟩)
    (hoff : off.toNat < 2 ^ 15) (hpc : f.pc = start prog i + j)
    (hr : Filter.Returns code data { f with pc := start prog (i + off.toNat + 1) } v) :
    Filter.Returns code data f v := by
  have hop : 0x07#8 &&& ebpfOpJa = opcJmp := by decide
  exact L.jump hcode hb he hop hoff hpc true (fun d hd => Filter.Next.ja d f hd) hr

/-- The block of a comparison. The second jump may be left out if it goes to the next block. -/
theorem branch (L : Layout checks insns prog code) (hcode : code.length < 2 ^ 15)
    {jt jf : BitVec 8} {t : List Insn} (hb : prog[i]? = some (e :: t))
    (hop : 0x07#8 &&& e.opcode = opcJmp) (hjt : e.offset = jt.setWidth 16)
    (ht : t = [⟨ebpfOpJa, 0, 0, jf.setWidth 16, 0⟩] ∨ t = [] ∧ jf = 0)
    (hpc : f.pc = start prog i) (c : Bool)
    (hnext : ∀ d : BitVec 16, d.toNat < 2 ^ 15 → Filter.Next data { e with offset := d } f
      { f with pc := f.pc + 1 + if c then d.toNat else 0 })
    (hr : Filter.Returns code data
      { f with pc := start prog (i + (if c then jt.toNat else jf.toNat) + 1) } v) :
    Filter.Returns code data f v := by
  have hbyte : ∀ o : BitVec 8, (o.setWidth 16).toNat = o.toNat := fun o => by
    rw [BitVec.toNat_setWidth, Nat.mod_eq_of_lt (by have := o.isLt; omega)]
  have hsmall : ∀ o : BitVec 8, (o.setWidth 16).toNat < 2 ^ 15 := fun o => by
    rw [hbyte]
    have := o.isLt
    omega
  refine L.jump hcode hb (j := 0) rfl hop (hjt ▸ hsmall jt) hpc c hnext ?_
  cases c with
  | true =>
      rw [hjt, hbyte]
      exact hr
  | false =>
      rcases ht with rfl | ⟨rfl, rfl⟩
      · refine L.ja hcode hb (j := 1) rfl (hsmall jf) (by rw [hpc]; rfl) ?_
        rw [hbyte]
        exact hr
      · have hend := start_succ hb
        rw [List.length_singleton] at hend
        rw [hpc, ← hend]
        exact hr

end Layout

variable {f : Filter} {data : List (BitVec 8)} {v : BitVec 32} {s s' : State}

/-- **A jump of the filter** goes to the block of the instruction that comes next. -/
theorem jmp_runs (L : Layout checks insns prog code) (hcode : code.length < 2 ^ 15)
    (hi : insns[s.pc]? = some insn) (hcls : bpfClass insn.code = bpfJmp)
    (hexec : Simple.jmp insn.asConverted s = .ok s') (hin : s'.pc + 1 < insns.length)
    (hsame : Same s f) (hpc : f.pc = start prog (s.pc + 1)) :
    Same s' f ∧ ∀ v, Filter.Returns code data { f with pc := start prog (s'.pc + 2) } v →
      Filter.Returns code data f v := by
  obtain ⟨b, hb, hblock⟩ := L.block hi
  have hc : C2e.jmp insn = .ok b := by
    rw [block, hcls] at hblock
    exact hblock
  have hlen := L.length_lt
  by_cases hja : bpfOp insn.code = bpfJa
  · rw [BpfInsn.asConverted_ja hcls hja] at hexec
    obtain ⟨-, rfl⟩ | ⟨hne, -⟩ := Simple.jmp_ok hexec
    · rw [jmp, if_pos hja] at hc
      obtain rfl := Except.ok.inj hc
      dsimp only at hin
      have hoff : (insn.k.setWidth 16).toNat = insn.k.toNat := by
        rw [BitVec.toNat_setWidth, Nat.mod_eq_of_lt (by omega)]
      refine ⟨⟨hsame.a, hsame.x, hsame.mem⟩, ?_⟩
      intro v hr
      refine L.ja hcode hb (j := 0) rfl (by omega) hpc ?_
      rw [hoff, Nat.add_right_comm s.pc 1]
      exact hr
    · exact absurd hja hne
  rw [jmp, if_neg hja] at hc
  by_cases hsrc : bpfSrc insn.code = bpfX
  · obtain ⟨o, ho, hsigned, rfl⟩ := Simple.jmpX_cases hcls hsrc hja hexec
    rw [hsrc, if_neg (by decide), if_pos rfl, ho] at hc
    obtain rfl := Except.ok.inj hc
    refine ⟨⟨hsame.a, hsame.x, hsame.mem⟩, ?_⟩
    intro v hr
    refine L.branch hcode hb (Layout.class_jumpOp o true) rfl (Or.inl rfl) hpc
      (o.holds s.x s.a) ?_ ?_
    · intro d hd
      rw [← hsame.a, ← hsame.x]
      exact Filter.Next.jmpReg o d f hsigned hd
    · rw [Nat.add_right_comm s.pc 1]
      exact hr
  · rw [BpfInsn.asConverted_jmp hcls hsrc] at hexec
    obtain ⟨hja', -⟩ | ⟨-, src, c, hsource, hcond, rfl⟩ := Simple.jmp_ok hexec
    · exact absurd hja' hja
    obtain ⟨hk, rfl⟩ | ⟨-, hx, -⟩ := Simple.source_ok hsource
    · obtain ⟨o, ho, -, hsigned, rfl⟩ := Simple.cond_cases hcond
      rw [if_pos hk, ho] at hc
      obtain rfl := Except.ok.inj hc
      refine ⟨⟨hsame.a, hsame.x, hsame.mem⟩, ?_⟩
      intro v hr
      have htail : (if insn.jf ≠ 0 then [⟨ebpfOpJa, 0, 0, insn.jf.setWidth 16, 0⟩] else [])
            = [(⟨ebpfOpJa, 0, 0, insn.jf.setWidth 16, 0⟩ : Insn)]
          ∨ (if insn.jf ≠ 0 then [(⟨ebpfOpJa, 0, 0, insn.jf.setWidth 16, 0⟩ : Insn)] else []) = []
            ∧ insn.jf = 0 := by
        split_ifs with hjf
        · exact Or.inl rfl
        · exact Or.inr ⟨rfl, not_not.mp hjf⟩
      refine L.branch hcode hb (Layout.class_jumpOp o false) rfl htail hpc
        (o.holds s.a insn.k) ?_ ?_
      · intro d hd
        rw [← hsame.a]
        exact Filter.Next.jmp o insn.k d f hsigned hd
      · rw [Nat.add_right_comm s.pc 1]
        exact hr
    · exact absurd hx hsrc

/-- An instruction of the classic program, in the converted one. -/
theorem next_runs (L : Layout checks insns prog code) (hcode : code.length < 2 ^ 15)
    (hdata : data.length ≤ 2 ^ 15) (hi : insns[s.pc]? = some insn)
    (hwrap : checks = false → insn.WrapsAlike)
    (hnext : Simple.Nexts checks data insn.asConverted s s') (hin : s'.pc < insns.length)
    (hsame : Same s f) (hpc : f.pc = start prog (s.pc + 1)) :
    ∃ f', (Same s' f' ∧ f'.pc = start prog (s'.pc + 1))
      ∧ ∀ v, Filter.Returns code data f' v → Filter.Returns code data f v := by
  obtain ⟨hret, s₁, hexec, rfl⟩ := hnext
  rw [BpfInsn.class_asConverted] at hret
  by_cases hjmp : bpfClass insn.code = bpfJmp
  · have hj : Simple.jmp insn.asConverted s = .ok s₁ := by
      rw [Simple.exec, BpfInsn.class_asConverted, hjmp] at hexec
      exact hexec
    obtain ⟨hsame', hr⟩ := jmp_runs L hcode hi hjmp hj hin hsame hpc
    exact ⟨{ f with pc := start prog (s₁.pc + 2) }, ⟨⟨hsame'.a, hsame'.x, hsame'.mem⟩, rfl⟩, hr⟩
  · obtain ⟨b, hb, hblock⟩ := L.block hi
    have hblk := exec_block hexec hblock hret hjmp hwrap hdata
    obtain ⟨f', halong, hsame'⟩ := hblk.along f hsame
    obtain ⟨hpc', hr⟩ := L.straight hb hblk.straight halong hpc
    refine ⟨f', ⟨⟨hsame'.a, hsame'.x, hsame'.mem⟩, ?_⟩, hr⟩
    rw [hpc', hblk.pc]

/-- `EXIT` at the end of a block keeps its offset of zero. -/
theorem exit_runs (L : Layout checks insns prog code) (hcode : code.length < 2 ^ 15)
    (hb : prog[i]? = some b) (hj : b.length = j + 1) (he : b[j]? = some exit)
    (hpc : f.pc = start prog i + j) : Filter.Returns code data f f.a := by
  have hop : 0x07#8 &&& ebpfOpExit = opcJmp := by decide
  obtain ⟨d, hplace, -, htarget⟩ := L.jump_offset hcode hb he hop (by decide)
  have hd : d = 0#16 := by
    have hnext := start_succ hb
    have hzero : exit.offset.toNat = 0 := rfl
    rw [hzero, Nat.add_zero i] at htarget
    apply BitVec.eq_of_toNat_eq
    rw [BitVec.toNat_zero]
    omega
  subst hd
  exact Runs.ret (hpc ▸ hplace) ⟨rfl, rfl⟩

/-- A return of the classic program. -/
theorem ret_runs (L : Layout checks insns prog code) (hcode : code.length < 2 ^ 15)
    (hi : insns[s.pc]? = some insn) (hret : Simple.Rets insn.asConverted s v) (hsame : Same s f)
    (hpc : f.pc = start prog (s.pc + 1)) : Filter.Returns code data f v := by
  obtain ⟨hcls, hv⟩ := hret
  rw [BpfInsn.class_asConverted] at hcls
  have halu : bpfClass insn.code ≠ bpfAlu := by rw [hcls]; decide
  have hjmp : bpfClass insn.code ≠ bpfJmp := by rw [hcls]; decide
  rw [BpfInsn.asConverted_eq halu hjmp] at hv
  obtain ⟨b, hb, hc⟩ := L.block hi
  rw [block, if_pos hcls, ret] at hc
  rcases ite_eq_iff.mp hv with ⟨ha, hv⟩ | ⟨ha, hv⟩
  · rw [if_pos ha] at hc
    obtain rfl := Except.ok.inj hc
    obtain rfl := Except.ok.inj hv
    rw [← hsame.a]
    exact exit_runs L hcode hb (j := 0) rfl rfl hpc
  rw [if_neg ha] at hc
  rcases ite_eq_iff.mp hv with ⟨hk, hv⟩ | ⟨-, hv⟩
  · rw [if_pos hk] at hc
    obtain rfl := Except.ok.inj hc
    obtain rfl := Except.ok.inj hv
    obtain ⟨e', hplace, hadjust⟩ := L.placed (j := 0) hb rfl
    have hop : 0x07#8 &&& ebpfOpMovImm ≠ opcJmp := by decide
    rw [adjust, if_neg hop] at hadjust
    obtain rfl := Except.ok.inj hadjust
    refine Runs.next (hpc ▸ hplace) (Filter.Next.alu .mov .a insn.k f nofun) ?_
    exact exit_runs L hcode hb (j := 1) rfl rfl (by rw [Filter.set_pc, hpc])
  · exact absurd hv Simple.fail_ne_ok

/-- The first block clears the registers. -/
theorem convert_init (hconv : convert checks insns = .ok code) :
    ∀ (j : Nat) (e : Insn), init[j]? = some e → code[j]? = some e := by
  obtain ⟨prog, L⟩ := exists_layout hconv
  intro j e he
  obtain ⟨e', hplace, hadjust⟩ := L.placed L.head he
  have hstraight : ∀ e ∈ init, 0x07#8 &&& e.opcode ≠ opcJmp := by decide
  rw [adjust, if_neg (hstraight e (List.mem_of_getElem? he))] at hadjust
  obtain rfl := Except.ok.inj hadjust
  rwa [start_zero, Nat.zero_add] at hplace

/-- The interpreter returns `v`. It runs the filter itself if the converter keeps all its
instructions, and otherwise those that it takes them for. -/
def Decides (checks : Bool) (insns : List BpfInsn) (data : List (BitVec 8)) (v : BitVec 32) :
    Prop :=
  (∀ insn ∈ insns, insn.Kept) ∧ Simple.run checks insns data = some (.ok v)
    ∨ Simple.run checks (insns.map BpfInsn.asConverted) data = some (.ok v)

theorem Decides.run (h : Decides checks insns data v) :
    Simple.run checks (insns.map BpfInsn.asConverted) data = some (.ok v) := by
  rcases h with ⟨hkept, hrun⟩ | hrun
  · rwa [BpfInsn.map_asConverted hkept]
  · exact hrun

/-- `ld #6; and #3; ret a`. -/
def andFilter : List BpfInsn := [⟨0x00, 0, 0, 6⟩, ⟨0x54, 0, 0, 3⟩, ⟨0x16, 0, 0, 0⟩]

example : Simple.run true andFilter [] = some (.ok 2) ∧ Decides true andFilter [] 9 :=
  ⟨rfl, Or.inr rfl⟩

/-- The converted filter from behind the first block. -/
theorem convert_returns_cleared (hconv : convert checks insns = .ok code)
    (hcode : code.length < 2 ^ 15) (hdata : data.length ≤ 2 ^ 15) (hne : insns ≠ [])
    (hwrap : checks = false → ∀ insn ∈ insns, insn.WrapsAlike)
    (hv : Decides checks insns data v)
    (hpc : f.pc = 2) (hsame : Same Simple.start f) : Filter.Returns code data f v := by
  obtain ⟨prog, L⟩ := exists_layout hconv
  have hne' : insns.map BpfInsn.asConverted ≠ [] := by simpa using hne
  have hrun := hv.run
  rw [Simple.run, if_neg hne'] at hrun
  have hfirst : start prog 1 = 2 := by
    rw [start_succ L.head, start_zero]
    rfl
  have hmeets : Meets (fun i => start prog (i + 1)) Same Cbpf.State.pc Filter.pc Simple.start f :=
    ⟨hsame, hpc.trans hfirst.symm⟩
  refine Runs.expand ?_ ?_ (Simple.runs_of_loop hrun) hmeets
  · intro a s s' t ha hnext hin ht
    rw [List.getElem?_map, Option.map_eq_some_iff] at ha
    obtain ⟨insn, hi, rfl⟩ := ha
    rw [List.length_map] at hin
    exact next_runs L hcode hdata hi (fun h => hwrap h insn (List.mem_of_getElem? hi)) hnext hin
      ht.1 ht.2
  · intro a s r t ha hret ht
    rw [List.getElem?_map, Option.map_eq_some_iff] at ha
    obtain ⟨insn, hi, rfl⟩ := ha
    exact ret_runs L hcode hi hret ht.1 ht.2

/-- What filters return behind the first block, they return from any registers. -/
theorem returns_of_cleared (hconv : convert checks insns = .ok code) (hpc : f.pc = 0)
    (hcleared : ∀ f' : Filter, f'.pc = 2 → f'.a = 0 → f'.x = 0 → f'.mem = f.mem →
      Filter.Returns code data f' v) : Filter.Returns code data f v := by
  have hinit := convert_init hconv
  refine Runs.next (hpc ▸ hinit 0 _ rfl) (Filter.Next.alu .mov .a 0 f nofun) ?_
  refine Runs.next ?_ (Filter.Next.alu .mov .x 0 _ nofun) ?_
  · rw [Filter.set_pc, hpc]
    exact hinit 1 _ rfl
  · refine hcleared _ ?_ rfl rfl rfl
    rw [Filter.set_pc, Filter.set_pc, hpc]

/-- `ldh [12]; jeq #0x806, 0, drop; ret #-1; drop: ret #0`. -/
def arpFilter : List BpfInsn :=
  [⟨0x28, 0, 0, 12⟩, ⟨0x15, 0, 1, 0x0806⟩, ⟨0x06, 0, 0, 0xffffffff⟩, ⟨0x06, 0, 0, 0⟩]

/-- The filter as it is converted. -/
def arpProgram : List Insn :=
  [⟨ebpfOpMovImm, regA, 0, 0, 0⟩, ⟨ebpfOpMovImm, regX, 0, 0, 0⟩, ⟨ebpfOpLdxh, regA, r1, 12, 0⟩,
    ⟨ebpfOpBe, regA, 0, 0, 16⟩, ⟨ebpfOpJeqImm, regA, 0, 1, 0x0806⟩, ⟨ebpfOpJa, 0, 0, 2, 0⟩,
    ⟨ebpfOpMovImm, regA, 0, 0, 0xffffffff⟩, exit, ⟨ebpfOpMovImm, regA, 0, 0, 0⟩, exit]

/-- The first bytes of an ARP packet. -/
def arpBytes : List (BitVec 8) := [0, 0, 0, 0, 0, 0, 0, 0, 0, 0, 0, 0, 0x08, 0x06]

theorem decides_arp : Decides true arpFilter arpBytes 0xffffffff := Or.inl ⟨by decide, rfl⟩

end C2e

end VeBpf
