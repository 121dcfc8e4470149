import Mathlib.Data.Bool.AllAny
import VeBpf.Lib.Halves
import VeBpf.Proof.Validate

/-!
# What a program in user space can do

A run of `ubpf_exec` of a program that `ubpf_load` has accepted goes from
instruction to instruction, keeps the frame pointer, and writes nowhere but in the
context and the stack. Any other byte that has changed was changed by a registered
function that the program called. A run is undefined in four ways, and the bounds
check lets one of them through: an access that wraps round the end of the address
space.
-/

namespace VeBpf

namespace Ubpf

open ByteMem Attempt

variable {insts : List Insn} {i j : Nat} {inst : Insn}

/-! ## The bounds check -/

namespace Frame

variable {e : Frame}

/-- The context and the stack do not reach the end of the address space. -/
structure Placed (e : Frame) : Prop where
  mem : e.mem.toNat + e.memLen.toNat < 2 ^ 64
  stack : e.stack.toNat + stackSize < 2 ^ 64

/-- The bytes of the context and the stack. -/
def Owned (e : Frame) (a : BitVec 64) : Prop := e.InMem a 1 ∨ e.InStack a 1

/-- An access that wraps passes by the stack: it starts above it and ends below it. -/
theorem boundsCheck_iff {addr : BitVec 64} {size : Nat} (he : e.vm.boundsCheckEnabled = true)
    (hp : e.Placed) (hsize : size ≤ 8) : e.boundsCheck addr size = true ↔
      e.InMem addr size ∨ e.InStack addr size ∨ 2 ^ 64 ≤ addr.toNat + size := by
  have haddr := addr.isLt
  have hmem := hp.mem
  have hstack := hp.stack
  have hend : (e.mem + e.memLen).toNat = e.mem.toNat + e.memLen.toNat := by
    rw [BitVec.toNat_add, Nat.mod_eq_of_lt hmem]
  have htop : (e.stack + BitVec.ofNat 64 stackSize).toNat = e.stack.toNat + stackSize := by
    rw [BitVec.toNat_add, BitVec.toNat_ofNat, Nat.mod_eq_of_lt (by decide : stackSize < 2 ^ 64),
      Nat.mod_eq_of_lt hstack]
  have hlast : (addr + BitVec.ofNat 64 size).toNat = (addr.toNat + size) % 2 ^ 64 := by
    rw [BitVec.toNat_add, BitVec.toNat_ofNat, Nat.mod_eq_of_lt (show size < 2 ^ 64 by omega)]
  unfold boundsCheck InMem InStack
  simp only [he, Bool.not_true, Bool.false_eq_true, if_false, BitVec.le_def, hend, htop, hlast]
  by_cases hwrap : 2 ^ 64 ≤ addr.toNat + size
  · have hin : e.stack.toNat ≤ addr.toNat
        ∧ (addr.toNat + size) % 2 ^ 64 ≤ e.stack.toNat + stackSize := by
      unfold stackSize at hstack ⊢
      omega
    rw [if_pos hin]
    exact iff_of_true (ite_self _) (Or.inr (Or.inr hwrap))
  · rw [Nat.mod_eq_of_lt (by omega)]
    split_ifs with hctx hstk
    · exact iff_of_true rfl (Or.inl hctx)
    · exact iff_of_true rfl (Or.inr (Or.inl hstk))
    · exact iff_of_false nofun (by tauto)

/-- Neither the context nor the stack wraps. -/
theorem not_wraps {addr : BitVec 64} {size : Nat} (hp : e.Placed)
    (h : e.InMem addr size ∨ e.InStack addr size) : addr.toNat + size < 2 ^ 64 := by
  rcases h with h | h
  · exact Nat.lt_of_le_of_lt h.2.2 hp.mem
  · exact Nat.lt_of_le_of_lt h.2 hp.stack

theorem access_ok {type : AccessType} {curPc : BitVec 16} {addr : BitVec 64} {size : Nat}
    {s s' : State} (h : e.access type curPc addr size s = .ok s') :
    s' = s ∧ (e.InMem addr size ∨ e.InStack addr size) := by
  unfold access at h
  split_ifs at h with hcheck hin
  exact ⟨(Except.ok.inj h).symm, hin⟩

/-- A byte of an access inside is inside. -/
theorem owned_of_access {addr a : BitVec 64} {size : Nat} (hp : e.Placed)
    (h : e.InMem addr size ∨ e.InStack addr size) (ha : (a - addr).toNat < size) : e.Owned a := by
  have hno := not_wraps hp h
  have hsum : a.toNat = addr.toNat + (a - addr).toNat := by
    have hadd := congrArg BitVec.toNat (add_toNat_sub addr a)
    rw [BitVec.toNat_add, BitVec.toNat_ofNat,
      Nat.mod_eq_of_lt (a - addr).isLt, Nat.mod_eq_of_lt (by omega)] at hadd
    exact hadd.symm
  rcases h with ⟨hnull, hlow, hhigh⟩ | ⟨hlow, hhigh⟩
  · exact Or.inl ⟨hnull, by omega, by omega⟩
  · exact Or.inr ⟨by omega, by omega⟩

end Frame

/-! ## What the arms leave undefined -/

theorem ldxArm_cases {op : BitVec 8} {size : Nat} :
    ldxArm op = some size → size ≤ 8 ∧ op ∉ storeOps ∧ op ≠ ebpfOpLddw
      ∧ ∀ curPc d s imm, aluArm curPc op d s imm = none := by
  unfold ldxArm
  repeat' refine of_ite ?_ ?_
  all_goals
    intro hop
    cases hop
  all_goals
    intro h
    obtain rfl := Option.some.inj h
    exact ⟨by decide, by decide, by decide, fun _ _ _ _ => rfl⟩

theorem storeArm_cases {op : BitVec 8} {s v : BitVec 64} {imm : BitVec 32} {size : Nat} :
    storeArm op s imm = some (size, v) → size ≤ 8 ∧ op ∈ storeOps ∧ op ≠ ebpfOpLddw
      ∧ ldxArm op = none ∧ ∀ curPc d s imm, aluArm curPc op d s imm = none := by
  unfold storeArm
  repeat' refine of_ite ?_ ?_
  all_goals
    intro hop
    cases hop
  all_goals
    intro h
    obtain ⟨rfl, rfl⟩ := Prod.mk.inj (Option.some.inj h)
    exact ⟨by decide, by decide, by decide, rfl, fun _ _ _ _ => rfl⟩

theorem jumpArm_cases {op : BitVec 8} {d s : BitVec 64} {imm : BitVec 32} {taken : Bool} :
    jumpArm op d s imm = some taken → op ∈ jumpOps ∧ op ≠ ebpfOpLddw := by
  unfold jumpArm
  repeat' refine of_ite ?_ ?_
  all_goals
    intro hop
    cases hop
  all_goals exact fun _ => ⟨by decide, by decide⟩

theorem aluArm_plain {curPc : BitVec 16} {op : BitVec 8} {d s : BitVec 64} {imm : BitVec 32}
    {r : Except Stop (BitVec 64)} (h : aluArm curPc op d s imm = some r) :
    op ∉ storeOps ∧ op ≠ ebpfOpLddw := by
  constructor
  · intro hop
    have hnone : ∀ op ∈ storeOps, aluArm curPc op d s imm = none := by
      simp only [storeOps, List.forall_mem_cons]
      exact ⟨rfl, rfl, rfl, rfl, rfl, rfl, rfl, rfl, nofun⟩
    rw [hnone op hop] at h
    cases h
  · rintro rfl
    cases h

theorem aluArm_notJump {curPc : BitVec 16} {op : BitVec 8} {d s : BitVec 64} {imm : BitVec 32}
    {r : Except Stop (BitVec 64)} : aluArm curPc op d s imm = some r → opclassOf op ≠ opcJmp := by
  unfold aluArm
  repeat' refine of_ite ?_ ?_
  all_goals
    intro hop
    cases hop
  all_goals
    intro _
    decide

/-- The jumps have an arm of the `switch` to themselves. -/
theorem jumpOps_apart : ∀ op ∈ jumpOps, op ∉ plainOps ∧ op ∉ storeOps ∧ op ∉ endianOps
    ∧ op ∉ divImmOps := List.all_iff_forall_prop.mp (by decide)

theorem checkInst_jump {vm : UbpfVm} (h : inst.opcode ∈ jumpOps) :
    checkInst vm insts i inst = checkJump insts i inst := by
  obtain ⟨hplain, hstore, hendian, -⟩ := jumpOps_apart _ h
  rw [checkInst, if_neg (not_or.mpr ⟨hplain, hstore⟩), if_neg hendian, if_pos h]

theorem checkInst_call {vm : UbpfVm} (h : inst.opcode = ebpfOpCall) :
    checkInst vm insts i inst = checkCall vm i inst := by
  rw [checkInst, h, if_neg (by decide), if_neg (by decide), if_neg (by decide), if_pos rfl]

theorem checkInst_endian {vm : UbpfVm} (h : inst.opcode = ebpfOpLe ∨ inst.opcode = ebpfOpBe)
    (hok : checkInst vm insts i inst = .ok ()) :
    inst.imm = 16 ∨ inst.imm = 32 ∨ inst.imm = 64 := by
  have hother : ∀ op ∈ endianOps, op ∉ plainOps ∧ op ∉ storeOps :=
    List.all_iff_forall_prop.mp (by decide)
  have hmem : inst.opcode ∈ endianOps := by
    rcases h with h | h <;> rw [h] <;> decide
  rw [checkInst, if_neg (not_or.mpr (hother _ hmem)), if_pos hmem] at hok
  split_ifs at hok with hwidth
  tauto

/-- So have the divisions by constants. -/
theorem divImmOps_apart : ∀ op ∈ divImmOps, op ∉ plainOps ∧ op ∉ storeOps ∧ op ∉ endianOps
    ∧ op ∉ jumpOps ∧ op ≠ ebpfOpCall := List.all_iff_forall_prop.mp (by decide)

theorem checkInst_divImm {vm : UbpfVm} (h : inst.opcode ∈ divImmOps) :
    checkInst vm insts i inst = .ok () ↔ inst.imm ≠ 0 := by
  obtain ⟨hplain, hstore, hendian, hjump, hcall⟩ := divImmOps_apart _ h
  rw [checkInst, if_neg (not_or.mpr ⟨hplain, hstore⟩), if_neg hendian, if_neg hjump, if_neg hcall,
    if_pos h]
  split_ifs with hzero
  · exact iff_of_false (fun hc => by cases hc) fun hc => hc hzero
  · exact iff_of_true rfl hzero

/-! ## Instruction boundaries -/

/-- An instruction begins here, or the program ends. -/
def Boundary (insts : List Insn) (i : Nat) : Prop :=
  i ≤ insts.length ∧ ∀ inst, insts[i]? = some inst → inst.opcode ≠ 0

section Accepted

variable {vm : UbpfVm}

theorem AcceptedFrom.boundary_next (h : AcceptedFrom vm insts 0) (hi : insts[i]? = some inst)
    (hop : inst.opcode ≠ ebpfOpLddw) : Boundary insts (i + 1) := by
  refine ⟨(List.getElem?_eq_some_iff.mp hi).1, ?_⟩
  intro next hnext hzero
  exact hop ((h.behind i inst next (Nat.zero_le i) hi hnext).mp hzero)

theorem AcceptedFrom.boundary_lddw (h : AcceptedFrom vm insts 0) (hi : insts[i]? = some inst)
    (hop : inst.opcode = ebpfOpLddw) :
    (∃ second, insts[i + 1]? = some second) ∧ Boundary insts (i + 2) := by
  have hlt := h.complete i inst (Nat.zero_le i) hi hop
  have hsecond := List.getElem?_eq_getElem hlt
  have hzero := (h.behind i inst _ (Nat.zero_le i) hi hsecond).mpr hop
  refine ⟨⟨_, hsecond⟩, h.boundary_next hsecond ?_⟩
  rw [hzero]
  decide

theorem AcceptedFrom.boundary_jump (h : AcceptedFrom vm insts 0) (hmax : insts.length < maxInsts)
    (hi : insts[i]? = some inst) (hb : Boundary insts i) (hop : inst.opcode ∈ jumpOps)
    {pc : BitVec 16} (hpc : pc.toNat = i + 1) : Boundary insts (pc + inst.offset).toNat := by
  have hlddw : inst.opcode ≠ ebpfOpLddw := by
    rintro heq
    rw [heq] at hop
    exact absurd hop (by decide)
  have hcheck := h.checked i inst (Nat.zero_le i) hi (hb.2 inst hi) hlddw
  rw [checkInst_jump hop, checkJump] at hcheck
  split_ifs at hcheck with hloop hbounds hmiddle
  obtain ⟨n, hn⟩ := Int.eq_ofNat_of_zero_le (show 0 ≤ (i : Int) + 1 + inst.offset.toInt by omega)
  have hlt : n < insts.length := by omega
  have hsum : (pc + inst.offset).toNat = n := by
    have hint := inst.offset.toInt_eq_toNat_cond
    have hpow : inst.offset.toNat < 65536 := inst.offset.isLt
    unfold maxInsts at hmax
    rw [BitVec.toNat_add, hpc]
    split_ifs at hint <;> omega
  rw [hsum]
  refine ⟨Nat.le_of_lt hlt, ?_⟩
  intro target htarget hzero
  rw [hn, Int.toNat_natCast, htarget, Option.map_some, hzero] at hmiddle
  exact hmiddle rfl

theorem AcceptedFrom.call (h : AcceptedFrom vm insts 0) (hi : insts[i]? = some inst)
    (hop : inst.opcode = ebpfOpCall) :
    0 ≤ inst.imm.toInt ∧ ∃ fn, vm.extFuncs[inst.imm.toNat]?.join = some fn := by
  have hcheck := h.checked i inst (Nat.zero_le i) hi (by rw [hop]; decide) (by rw [hop]; decide)
  rw [checkInst_call hop, checkCall] at hcheck
  split_ifs at hcheck with hrange hnone
  exact ⟨by omega, Option.ne_none_iff_exists'.mp fun hc => hnone (by rw [hc]; rfl)⟩

end Accepted

/-! ## The state -/

namespace State

variable {s : State} {x y : BitVec 4} {v : BitVec 64}

@[simp] theorem get_set_self : (s.set x v).get x = v := Vector.getElem_set_self _

theorem get_set_of_ne (h : x ≠ y) : (s.set x v).get y = s.get y :=
  Vector.getElem_set_ne x.isLt y.isLt fun hc => h (BitVec.eq_of_toNat_eq hc)

@[simp] theorem set_pc : (s.set x v).pc = s.pc := rfl

end State

namespace Frame

variable {e : Frame} {s s' : State}

/-- Registered functions change nothing but the context and the stack. -/
def FunctionsKeep (e : Frame) : Prop :=
  ∀ (i : Nat) (fn : ExtFunc) (args : Vector (BitVec 64) 5) (bytes : Memory) (a : BitVec 64),
    e.vm.extFuncs[i]?.join = some fn → ¬ e.Owned a → (fn args bytes).2 a = bytes a

/-- `pc` is where an instruction begins, and `r10` is the top of the stack. -/
structure Steady (e : Frame) (insts : List Insn) (s : State) : Prop where
  boundary : Boundary insts s.pc.toNat
  framePointer : s.get 10 = e.stack + BitVec.ofNat 64 stackSize

/-- The next instruction calls a registered function, and this changes the byte `a`. -/
def CallChanges (e : Frame) (insts : List Insn) (s : State) (a : BitVec 64) : Prop :=
  ∃ inst s', insts[s.pc.toNat]? = some inst ∧ inst.opcode = ebpfOpCall
    ∧ e.call inst { s with pc := s.pc + 1 } = .ok s' ∧ s'.bytes a ≠ s.bytes a

/-- What a call leaves in the memory is what a registered function does. -/
theorem call_ok (h : e.call inst s = .ok s') : ∃ (i : Nat) (fn : ExtFunc) (args : _),
    e.vm.extFuncs[i]?.join = some fn ∧ s'.bytes = (fn args s.bytes).2 := by
  unfold call at h
  split_ifs at h with hneg
  cases hfn : e.vm.extFuncs[inst.imm.toNat]?.join with
  | none =>
      rw [hfn] at h
      cases h
  | some fn =>
      rw [hfn] at h
      obtain rfl := Except.ok.inj h
      exact ⟨_, fn, _, hfn, rfl⟩

/-- The state `s` of a run that began at `s₀`. Of the bytes that are neither in the context nor in
the stack, only those have changed that functions have changed which the program has called. -/
structure Sandboxed (e : Frame) (insts : List Insn) (s₀ s : State) : Prop
    extends Steady e insts s where
  outside : ∀ a, ¬ e.Owned a → s.bytes a ≠ s₀.bytes a →
    ∃ t, Reaches (e.step insts) s₀ t ∧ Reaches (e.step insts) t s ∧ e.CallChanges insts t a

/-- Where such functions keep to the context and the stack, the whole run does. -/
theorem Sandboxed.kept {s₀ : State} {a : BitVec 64} (h : e.Sandboxed insts s₀ s)
    (hkeep : e.FunctionsKeep) (ha : ¬ e.Owned a) : s.bytes a = s₀.bytes a := by
  by_contra hne
  obtain ⟨t, -, -, inst, t', -, -, hcall, hchange⟩ := h.outside a ha hne
  obtain ⟨_, fn, _, hfn, hbytes⟩ := call_ok hcall
  rw [hbytes] at hchange
  exact hchange (hkeep _ fn _ _ a hfn ha)

section Turn

variable {r : Except Stop State}

theorem toNat_succ {pc : BitVec 16} (hlt : pc.toNat < insts.length)
    (hmax : insts.length < maxInsts) : (pc + 1).toNat = pc.toNat + 1 := by
  unfold maxInsts at hmax
  rw [BitVec.toNat_add, show (1 : BitVec 16).toNat = 1 by rfl, Nat.mod_eq_of_lt (by omega)]

end Turn

/-! ## A run -/

section Loaded

variable {vm : UbpfVm} {code : List (BitVec 8)} {reg : Vector (BitVec 64) 16} {bytes : Memory}

end Loaded

/-- What can be called before loading, if only functions are registered that keep to the context
and the stack. -/
inductive Setup (e : Frame) : UbpfVm → Prop
  | create : Setup e ubpfCreate
  | toggle {vm : UbpfVm} (enable : Bool) (h : Setup e vm) : Setup e (toggleBoundsCheck vm enable).2
  | register {vm vm' : UbpfVm} {idx : BitVec 32} {label : Option String} {fn : Option ExtFunc}
      (h : Setup e vm) (hreg : ubpfRegister vm idx label fn = some vm')
      (hfn : ∀ f ∈ fn, ∀ args bytes a, ¬ e.Owned a → (f args bytes).2 a = bytes a) : Setup e vm'

theorem Setup.keeps {e : Frame} {vm : UbpfVm} (h : e.Setup vm) {i : Nat} {fn : ExtFunc}
    {args : Vector (BitVec 64) 5} {bytes : Memory} {a : BitVec 64}
    (hi : vm.extFuncs[i]?.join = some fn) (ha : ¬ e.Owned a) : (fn args bytes).2 a = bytes a := by
  induction h with
  | create =>
      rw [show ubpfCreate.extFuncs = Vector.replicate _ none by rfl, Vector.getElem?_replicate] at hi
      split_ifs at hi <;> cases hi
  | toggle enable h ih => exact ih hi
  | register h hreg hfn ih =>
      rw [ubpfRegister_function hreg] at hi
      split_ifs at hi with hidx
      · exact hfn fn hi args bytes a ha
      · exact ih hi

end Frame

end Ubpf

end VeBpf
