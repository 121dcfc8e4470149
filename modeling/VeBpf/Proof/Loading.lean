import VeBpf.Proof.Conversion
import VeBpf.Proof.Sandbox

/-!
# Converted filters in the loader

The converter says that it is made for `ubpf`. `ubpf_load` takes what it makes, but for
three kinds of classic instructions that the converter lets through: a division by
the constant zero, a jump behind the last instruction, and a jump to itself, which a
release build converts.
-/

namespace VeBpf

open Cbpf Expansion

namespace Ubpf

variable {vm : UbpfVm} {insts : List Insn} {inst : Insn} {i : Nat}

/-- Without `LDDW` every slot is checked on its own. -/
theorem acceptedFrom_single (hop : ∀ (i : Nat) inst, insts[i]? = some inst →
      inst.opcode ≠ 0 ∧ inst.opcode ≠ ebpfOpLddw ∧ RegsOk inst) :
    AcceptedFrom vm insts 0
      ↔ ∀ (i : Nat) inst, insts[i]? = some inst → checkInst vm insts i inst = .ok () := by
  constructor
  · intro h i inst hi
    obtain ⟨hzero, hlddw, -⟩ := hop i inst hi
    exact h.checked i inst (Nat.zero_le i) hi hzero hlddw
  · intro h
    refine ⟨fun inst hi => (hop 0 inst hi).1, ?_, ?_, fun i inst _ hi _ _ => h i inst hi,
      fun i inst _ hi _ => (hop i inst hi).2.2⟩
    · intro j inst next _ hi hnext
      exact iff_of_false (hop _ next hnext).1 (hop j inst hi).2.1
    · intro j inst _ hi hlddw
      exact absurd hlddw (hop j inst hi).2.1

/-- The checks of a jump in a program without `LDDW`. -/
theorem checkJump_ok (hop : ∀ (i : Nat) inst, insts[i]? = some inst → inst.opcode ≠ 0) :
    checkJump insts i inst = .ok () ↔ inst.offset.toInt ≠ -1
      ∧ 0 ≤ (i : Int) + 1 + inst.offset.toInt
      ∧ (i : Int) + 1 + inst.offset.toInt < insts.length := by
  have hmiddle : ∀ k : Nat, (insts[k]?.map Insn.opcode) ≠ some 0 := by
    intro k hk
    obtain ⟨inst, hi, hzero⟩ := Option.map_eq_some_iff.mp hk
    exact hop k inst hi hzero
  unfold checkJump
  dsimp only
  rw [if_neg (hmiddle _)]
  split_ifs with hloop hbounds
  · exact iff_of_false nofun fun h => h.1 hloop
  · exact iff_of_false nofun fun h => by omega
  · exact iff_of_true rfl ⟨hloop, by omega, by omega⟩

end Ubpf

namespace C2e

open Attempt Ubpf

variable {checks : Bool} {insns : List BpfInsn} {insn : BpfInsn} {code : List Insn}
  {prog : List (List Insn)} {i j : Nat} {b : List Insn} {e e' : Insn} {vm : UbpfVm}

/-! ## Which instructions pass -/

/-- Where a jump of a block goes, if it leaves it: to a block there is, and not to itself. -/
def Lands (len i j : Nat) (off : BitVec 16) : Prop :=
  (i : Int) + off.toInt + 1 < len ∧ ¬ (off.toInt = -1 ∧ j = 0)

/-- The loader takes instruction `j` of block `i`, and the jump that it is. -/
def Admitted (len i j : Nat) (e : Insn) : Prop :=
  (e.opcode ∈ divImmOps → e.imm ≠ 0) ∧ (e.opcode ∈ jumpOps → Lands len i j e.offset)

/-- The classic instruction `i` of `len` passes the loader once it is converted. -/
def Passes (len i : Nat) (insn : BpfInsn) : Prop :=
  (bpfClass insn.code = bpfAlu → DividesByK insn → insn.k ≠ 0)
    ∧ (bpfClass insn.code = bpfJmp →
      if bpfOp insn.code = bpfJa then
        (i : Int) + 1 + (insn.k.setWidth 16).toInt < len ∧ (insn.k.setWidth 16).toInt ≠ -1
      else i + 1 + insn.jt.toNat < len ∧ (JumpsTwice insn → i + 1 + insn.jf.toNat < len))

theorem be_mem : ebpfOpBe ∈ endianOps := by decide

instance (insn : BpfInsn) : Decidable (DividesByK insn) := inferInstanceAs (Decidable (_ ∧ (_ ∨ _)))

instance (insn : BpfInsn) : Decidable (JumpsTwice insn) := inferInstanceAs (Decidable (_ ∨ _))

instance (len i : Nat) (insn : BpfInsn) : Decidable (Passes len i insn) :=
  inferInstanceAs (Decidable ((_ → _ → _) ∧ (_ → _)))

theorem Straight.kind (h : Straight e) : e.opcode ∈ plainOps ∨ e.opcode ∈ storeOps
    ∨ e.opcode = ebpfOpBe ∧ (e.imm = 16 ∨ e.imm = 32) := by
  have halu : ∀ op : AluOp, op.divides = false → op.opcode opcAlu false ∈ plainOps := by
    intro op hdiv
    cases op <;> first | decide | cases hdiv
  have haluReg : ∀ op : AluOp, op.opcode opcAlu true ∈ plainOps := fun op => by
    cases op <;> decide
  have hshift : ∀ (op : ShiftOp) (reg : Bool), op.opcode opcAlu reg ∈ plainOps := fun op reg => by
    cases op <;> cases reg <;> decide
  have hload : ∀ op n, loadWidth op = some n → op ∈ plainOps := by
    intro op n
    unfold loadWidth
    split_ifs with h₁ h₂ h₃ h₄ <;> intro h
    · rw [h₁]; decide
    · rw [h₂]; decide
    · rw [h₃]; decide
    · rw [h₄]; decide
    · cases h
  cases h with
  | alu op r k hdiv => exact Or.inl (halu op hdiv)
  | aluReg op => exact Or.inl (haluReg op)
  | shift op => exact Or.inl (hshift op false)
  | shiftReg op => exact Or.inl (hshift op true)
  | load op n r base off hop => exact Or.inl (hload op n hop)
  | store => exact Or.inr (Or.inl (show ebpfOpStxw ∈ storeOps by decide))
  | packet => exact Or.inl (show ebpfOpMov64Reg ∈ plainOps by decide)
  | packetX => exact Or.inl (show ebpfOpAdd64Reg ∈ plainOps by decide)
  | be n hn => rcases hn with rfl | rfl <;> exact Or.inr (Or.inr ⟨rfl, by decide⟩)
  | exit => exact Or.inl (show ebpfOpExit ∈ plainOps by decide)

theorem Straight.checked (h : Straight e) (d : BitVec 16) :
    checkInst vm code i { e with offset := d } = .ok () := by
  rcases h.kind with hplain | hstore | ⟨hbe, himm⟩
  · rw [checkInst, if_pos (Or.inl hplain)]
  · rw [checkInst, if_pos (Or.inr hstore)]
  · rw [checkInst, hbe, if_neg (by decide), if_pos (by decide)]
    rcases himm with himm | himm <;> rw [himm] <;> rfl

theorem divide_mem {op : AluOp} (hdiv : op.divides = true) :
    op.opcode opcAlu false ∈ divImmOps := by
  cases op <;> first | decide | cases hdiv

theorem Straight.admitted (h : Straight e) (len i j : Nat) : Admitted len i j e := by
  constructor
  · intro hc
    obtain ⟨hplain, hstore, hendian, -⟩ := divImmOps_apart _ hc
    rcases h.kind with hmem | hmem | ⟨hbe, -⟩
    · exact absurd hmem hplain
    · exact absurd hmem hstore
    · exact absurd (hbe ▸ be_mem) hendian
  · intro hc
    obtain ⟨hplain, hstore, hendian, -⟩ := jumpOps_apart _ hc
    rcases h.kind with hmem | hmem | ⟨hbe, -⟩
    · exact absurd hmem hplain
    · exact absurd hmem hstore
    · exact absurd (hbe ▸ be_mem) hendian

theorem admitted_div {len : Nat} (h : e.opcode ∈ divImmOps) :
    Admitted len i j e ↔ e.imm ≠ 0 :=
  ⟨fun ha => ha.1 h, fun himm => ⟨fun _ => himm, fun hc => absurd hc (divImmOps_apart _ h).2.2.2.1⟩⟩

theorem admitted_jump {len : Nat} (h : e.opcode ∈ jumpOps) :
    Admitted len i j e ↔ Lands len i j e.offset :=
  ⟨fun ha => ha.2 h, fun hl => ⟨fun hc => absurd hc (jumpOps_apart _ h).2.2.2, fun _ => hl⟩⟩

theorem ja_mem : ebpfOpJa ∈ jumpOps := by decide

theorem Compares.mem {off : BitVec 16} (h : Compares off e) : e.opcode ∈ jumpOps := by
  have hop : ∀ (op : JumpOp) (reg : Bool), op.opcode reg ∈ jumpOps := fun op reg => by
    cases op <;> cases reg <;> decide
  cases h with
  | jmp op => exact hop op false
  | jmpReg op => exact hop op true

theorem Compares.offset {off : BitVec 16} (h : Compares off e) : e.offset = off := by
  cases h <;> rfl

/-- No instruction that is emitted has to do with `LDDW`. -/
theorem Emitted.single (h : Emitted e) : e.opcode ≠ 0 ∧ e.opcode ≠ ebpfOpLddw := by
  have hplain : ∀ op ∈ plainOps, op ≠ 0 ∧ op ≠ ebpfOpLddw :=
    List.all_iff_forall_prop.mp (by decide)
  have hstore : ∀ op ∈ storeOps, op ≠ 0 ∧ op ≠ ebpfOpLddw :=
    List.all_iff_forall_prop.mp (by decide)
  have hdivImm : ∀ op ∈ divImmOps, op ≠ 0 ∧ op ≠ ebpfOpLddw :=
    List.all_iff_forall_prop.mp (by decide)
  have hjump : ∀ op ∈ jumpOps, op ≠ 0 ∧ op ≠ ebpfOpLddw :=
    List.all_iff_forall_prop.mp (by decide)
  cases h with
  | straight h =>
      rcases h.kind with hmem | hmem | ⟨hbe, -⟩
      · exact hplain _ hmem
      · exact hstore _ hmem
      · rw [hbe]
        decide
  | divide op k hdiv => exact hdivImm _ (divide_mem hdiv)
  | ja => exact hjump _ ja_mem
  | compare off h => exact hjump _ h.mem

theorem Emitted.regsOk (h : Emitted e) (d : BitVec 16) : RegsOk { e with offset := d } := by
  obtain ⟨hsrc, hdst⟩ := h.registers
  refine ⟨hsrc, hdst.imp_right fun hc => ⟨?_, hc.2⟩⟩
  show e.opcode ∈ storeOps
  rw [hc.1]
  decide

/-! ## Where jumps go -/

namespace Layout

theorem start_lt (L : Layout checks insns prog code) {t : Nat} (ht : t ≤ prog.length) :
    start prog t < code.length ↔ t < prog.length := by
  constructor
  · intro h
    by_contra hc
    obtain rfl : t = prog.length := by omega
    rw [L.total] at h
    omega
  · intro h
    have hb := List.getElem?_eq_getElem h
    have hpos := List.length_pos_iff.mpr (L.ne_nil hb)
    have hnext := start_succ hb
    have hend := L.start_le (t + 1)
    omega

/-- Only its own first instruction is where a jump of a block to itself goes. -/
theorem start_eq (L : Layout checks insns prog code) {t : Nat} (hb : prog[i]? = some b)
    (hj : j < b.length) : start prog t = start prog i + j ↔ t = i ∧ j = 0 := by
  have hnext := start_succ hb
  constructor
  · intro h
    obtain hlt | rfl | hgt := lt_trichotomy t i
    · have hbt := List.getElem?_eq_getElem (l := prog) (i := t)
        (Nat.lt_trans hlt (List.getElem?_eq_some_iff.mp hb).1)
      have hpos := List.length_pos_iff.mpr (L.ne_nil hbt)
      have hnext' := start_succ hbt
      have hmono : start prog (t + 1) ≤ start prog i := start_mono (by omega)
      omega
    · exact ⟨rfl, by omega⟩
    · have hmono : start prog (i + 1) ≤ start prog t := start_mono (by omega)
      omega
  · rintro ⟨rfl, rfl⟩
    rfl

/-- **When a jump passes.** -/
theorem checkJump (L : Layout checks insns prog code) (hcode : code.length < 2 ^ 15)
    (hno : ∀ (i : Nat) e, code[i]? = some e → e.opcode ≠ 0) (hb : prog[i]? = some b)
    (he : b[j]? = some e) (hop : 0x07#8 &&& e.opcode = opcJmp)
    (he' : code[start prog i + j]? = some e') :
    Ubpf.checkJump code (start prog i + j) e' = .ok () ↔ Lands prog.length i j e.offset := by
  obtain ⟨t, d, ht, hle, hplace, hd⟩ := L.jump_target hcode hb he hop
  obtain rfl := Option.some.inj (hplace.symm.trans he')
  have hj := (List.getElem?_eq_some_iff.mp he).1
  have hlt := L.start_lt hle
  have heq := L.start_eq (t := t) hb hj
  rw [checkJump_ok hno]
  unfold Lands
  dsimp only
  rw [hd]
  constructor
  · rintro ⟨hself, -, hin⟩
    refine ⟨by omega, ?_⟩
    rintro ⟨hoff, hj0⟩
    have := heq.mpr ⟨by omega, hj0⟩
    omega
  · rintro ⟨hin, hself⟩
    have := hlt.mpr (by omega)
    refine ⟨fun hc => hself ?_, by omega, by omega⟩
    obtain ⟨hti, hj0⟩ := heq.mp (by omega)
    exact ⟨by omega, hj0⟩

/-- **When an instruction passes.** -/
theorem checkInst (L : Layout checks insns prog code) (vm : UbpfVm) (hcode : code.length < 2 ^ 15)
    (hno : ∀ (i : Nat) e, code[i]? = some e → e.opcode ≠ 0) (hb : prog[i]? = some b)
    (he : b[j]? = some e) (hemit : Emitted e) :
    ∃ e', code[start prog i + j]? = some e'
      ∧ (Ubpf.checkInst vm code (start prog i + j) e' = .ok () ↔ Admitted prog.length i j e) := by
  obtain ⟨e', he', hadjust⟩ := L.placed hb he
  obtain ⟨d, rfl⟩ := adjust_ok hadjust
  refine ⟨_, he', ?_⟩
  have hjump : e.opcode ∈ jumpOps →
      (Ubpf.checkInst vm code (start prog i + j) { e with offset := d } = .ok ()
        ↔ Admitted prog.length i j e) := by
    intro hop
    have hclass : ∀ op ∈ jumpOps, 0x07#8 &&& op = opcJmp :=
      List.all_iff_forall_prop.mp (by decide)
    have hcheck : Ubpf.checkInst vm code (start prog i + j) { e with offset := d }
        = Ubpf.checkJump code (start prog i + j) { e with offset := d } := checkInst_jump hop
    rw [hcheck, admitted_jump hop]
    exact L.checkJump hcode hno hb he (hclass _ hop) he'
  cases hemit with
  | straight h => exact iff_of_true (h.checked d) (h.admitted _ _ _)
  | divide op k hdiv =>
      have hop := divide_mem hdiv
      rw [checkInst_divImm hop, admitted_div hop]
  | ja => exact hjump ja_mem
  | compare off h => exact hjump h.mem

theorem emits (L : Layout checks insns prog code) (hb : prog[i]? = some b) : Emits Emitted b := by
  cases i with
  | zero =>
      obtain rfl := Option.some.inj (L.head.symm.trans hb)
      exact ⟨nofun, fun e he => .straight (init_straight e he)⟩
  | succ i =>
      have hlt := (List.getElem?_eq_some_iff.mp hb).1
      have hlen := L.length
      obtain ⟨b', hb', hblock⟩ :=
        L.block (List.getElem?_eq_getElem (l := insns) (i := i) (by omega))
      obtain rfl := Option.some.inj (hb'.symm.trans hb)
      exact block_emits hblock

/-- A program is loaded if all instructions of all blocks pass. -/
theorem acceptedFrom (L : Layout checks insns prog code) (hcode : code.length < 2 ^ 15)
    (hop : ∀ (i : Nat) e, code[i]? = some e →
      e.opcode ≠ 0 ∧ e.opcode ≠ ebpfOpLddw ∧ RegsOk e) :
    AcceptedFrom vm code 0 ↔ ∀ (i : Nat) b, prog[i]? = some b →
      ∀ (j : Nat) e, b[j]? = some e → Admitted prog.length i j e := by
  have hno : ∀ (i : Nat) e, code[i]? = some e → e.opcode ≠ 0 := fun i e he => (hop i e he).1
  rw [acceptedFrom_single hop]
  constructor
  · intro h i b hb j e he
    obtain ⟨e', he', hiff⟩ := L.checkInst vm hcode hno hb he
      ((L.emits hb).2 e (List.mem_of_getElem? he))
    exact hiff.mp (h _ _ he')
  · intro h c e' he'
    have hc := (List.getElem?_eq_some_iff.mp he').1
    obtain ⟨i, b, j, hb, hj, rfl⟩ := exists_block (L.total ▸ hc)
    have he := List.getElem?_eq_getElem hj
    obtain ⟨e'', he'', hiff⟩ := L.checkInst vm hcode hno hb he
      ((L.emits hb).2 _ (List.getElem_mem hj))
    obtain rfl := Option.some.inj (he''.symm.trans he')
    exact hiff.mpr (h i b hb j _ he)

end Layout

/-! ## Which blocks pass -/

theorem forall_getElem?_cons {P : Nat → Insn → Prop} {t : List Insn} :
    (∀ (j : Nat) x, (e :: t)[j]? = some x → P j x)
      ↔ P 0 e ∧ ∀ (j : Nat) x, t[j]? = some x → P (j + 1) x := by
  constructor
  · exact fun h => ⟨h 0 e rfl, fun j x hx => h (j + 1) x hx⟩
  · rintro ⟨hhead, htail⟩ j x hx
    cases j with
    | zero => exact Option.some.inj hx ▸ hhead
    | succ j => exact htail j x hx

theorem forall_getElem?_nil {P : Nat → Insn → Prop} :
    (∀ (j : Nat) x, ([] : List Insn)[j]? = some x → P j x) ↔ True :=
  iff_of_true (fun _ _ => nofun) trivial

/-- A jump over as many instructions as a byte says. -/
theorem lands_byte {len i j : Nat} (o : BitVec 8) :
    Lands (len + 1) (i + 1) j (o.setWidth 16) ↔ i + 1 + o.toNat < len := by
  have hlt := o.isLt
  have hint : (o.setWidth 16).toInt = o.toNat := by
    have hnat : (o.setWidth 16).toNat = o.toNat := by
      rw [BitVec.toNat_setWidth, Nat.mod_eq_of_lt (by omega)]
    rw [BitVec.toInt_eq_toNat_of_lt (by omega), hnat]
  unfold Lands
  rw [hint]
  omega

/-- **Which blocks pass.** -/
theorem block_passes {len : Nat} (h : block checks insn = .ok b) :
    (∀ (j : Nat) e, b[j]? = some e → Admitted (len + 1) (i + 1) j e) ↔ Passes len i insn := by
  have hne : bpfJmp ≠ bpfAlu := by decide
  unfold Passes
  obtain ⟨hcls, h⟩ | ⟨hcls, h⟩ | ⟨hjmp, halu, hb⟩ := block_cases h
  · rw [hcls, forall_prop_of_false hne, true_and, forall_prop_of_true rfl]
    obtain ⟨hja, rfl⟩ | ⟨hja, e, t, rfl, he, ⟨htwice, rfl⟩ | ⟨honce, rfl⟩⟩ := jmp_cases h
    · rw [if_pos hja, forall_getElem?_cons, forall_getElem?_nil, and_true,
        admitted_jump ja_mem]
      unfold Lands
      dsimp only
      omega
    · rw [if_neg hja, forall_getElem?_cons, forall_getElem?_cons, forall_getElem?_nil,
        and_true, admitted_jump he.mem, admitted_jump ja_mem, he.offset, lands_byte, lands_byte,
        forall_prop_of_true htwice]
    · rw [if_neg hja, forall_getElem?_cons, forall_getElem?_nil, and_true,
        admitted_jump he.mem, he.offset, lands_byte, forall_prop_of_false honce, and_true]
  · rw [hcls, forall_prop_of_false hne.symm, and_true, forall_prop_of_true rfl]
    obtain ⟨hk, e, rfl, he⟩ | ⟨hk, op, hdiv, rfl⟩ := alu_cases h
    · rw [forall_prop_of_false hk, forall_getElem?_cons, forall_getElem?_nil]
      exact iff_of_true ⟨he.admitted _ _ _, trivial⟩ trivial
    · rw [forall_prop_of_true hk, forall_getElem?_cons, forall_getElem?_nil, and_true,
        admitted_div (divide_mem hdiv)]
  · rw [forall_prop_of_false halu, forall_prop_of_false hjmp]
    refine iff_of_true (fun j e he => ?_) ⟨trivial, trivial⟩
    exact (hb.2 e (List.mem_of_getElem? he)).admitted _ _ _

/-- **Which filters the loader takes.** The program is loaded unless it divides by the constant
zero, jumps behind its end, or jumps from an instruction to itself. -/
theorem convert_loads {vm' : UbpfVm} (hconv : convert checks insns = .ok code)
    (hcode : code.length < 2 ^ 15) :
    ubpfLoad vm (assemble code) = .ok vm' ↔ vm.insts = none
      ∧ (∀ (i : Nat) insn, insns[i]? = some insn → Passes insns.length i insn)
      ∧ vm' = { vm with insts := some code } := by
  obtain ⟨prog, L⟩ := exists_layout hconv
  have hop : ∀ (i : Nat) e, code[i]? = some e →
      e.opcode ≠ 0 ∧ e.opcode ≠ ebpfOpLddw ∧ RegsOk e := by
    intro i e he
    obtain ⟨e, d, hemit, rfl⟩ := convert_emits hconv (List.mem_of_getElem? he)
    exact ⟨hemit.single.1, hemit.single.2, hemit.regsOk d⟩
  have hpass : AcceptedFrom vm code 0
      ↔ ∀ (i : Nat) insn, insns[i]? = some insn → Passes insns.length i insn := by
    rw [L.acceptedFrom hcode hop]
    constructor
    · intro h i insn hi
      obtain ⟨b, hb, hblock⟩ := L.block hi
      have hadmitted := h (i + 1) b hb
      rw [L.length] at hadmitted
      exact (block_passes hblock).mp hadmitted
    · intro h i b hb
      rw [L.length]
      cases i with
      | zero =>
          obtain rfl := Option.some.inj (L.head.symm.trans hb)
          exact fun j e he => (init_straight e (List.mem_of_getElem? he)).admitted _ _ _
      | succ i =>
          have hlt := (List.getElem?_eq_some_iff.mp hb).1
          have hlen := L.length
          have hi := List.getElem?_eq_getElem (l := insns) (i := i) (by omega)
          obtain ⟨b', hb', hblock⟩ := L.block hi
          obtain rfl := Option.some.inj (hb'.symm.trans hb)
          exact (block_passes hblock).mpr (h i _ hi)
  have hmax : code.length < maxInsts := Nat.lt_trans hcode (by decide)
  rw [ubpfLoad_assemble, and_iff_right hmax, hpass]

theorem convert_loads_arp : ubpfLoad ubpfCreate (assemble arpProgram)
    = .ok { ubpfCreate with insts := some arpProgram } :=
  have hconv : convert true arpFilter = .ok arpProgram := rfl
  have hpass : ∀ (i : Nat) (h : i < arpFilter.length),
      Passes arpFilter.length i arpFilter[i] := by decide
  (convert_loads hconv (by decide)).mpr ⟨rfl,
    fun i _ hi => (List.getElem?_eq_some_iff.mp hi).elim fun h he => he ▸ hpass i h, rfl⟩

end C2e

end VeBpf
