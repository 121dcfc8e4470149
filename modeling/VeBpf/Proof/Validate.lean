import VeBpf.Lib.Attempt
import VeBpf.Proof.Encoders
import VeBpf.Tools.Ubpf

/-!
# Programs that `ubpf_load` accepts

`validate` walks through the program once, an `LDDW` taking two steps at a time.
What it has made sure of is said slot by slot, without the walk.
-/

namespace VeBpf

namespace Ubpf

open ByteMem Attempt

variable {vm : UbpfVm} {insts : List Insn} {i j : Nat} {inst : Insn}

/-- The registers exist, and `r10` is written to memory only. -/
def RegsOk (inst : Insn) : Prop :=
  inst.src.toNat ≤ 10 ∧ (inst.dst.toNat ≤ 9 ∨ inst.opcode ∈ storeOps ∧ inst.dst = 10)

theorem checkRegs_ok : checkRegs i inst = .ok () ↔ RegsOk inst := by
  unfold checkRegs RegsOk
  split_ifs with hsrc hdst
  · exact ⟨nofun, fun h => absurd hsrc (by omega)⟩
  · refine ⟨nofun, fun h => ?_⟩
    rcases h.2 with hlow | hstore
    · omega
    · exact absurd hstore hdst.2
  · refine ⟨fun _ => ⟨by omega, ?_⟩, fun _ => rfl⟩
    by_cases hlow : inst.dst.toNat ≤ 9
    · exact Or.inl hlow
    · exact Or.inr (not_not.mp fun hc => hdst ⟨by omega, hc⟩)

/-- From slot `i` on the program is one instruction after the other. Slots with opcode 0 are the
second slots of `LDDW`, and every other slot passes its checks. -/
structure AcceptedFrom (vm : UbpfVm) (insts : List Insn) (i : Nat) : Prop where
  first : ∀ inst, insts[i]? = some inst → inst.opcode ≠ 0
  behind : ∀ j inst next, i ≤ j → insts[j]? = some inst → insts[j + 1]? = some next →
    (next.opcode = 0 ↔ inst.opcode = ebpfOpLddw)
  complete : ∀ j inst, i ≤ j → insts[j]? = some inst → inst.opcode = ebpfOpLddw →
    j + 1 < insts.length
  checked : ∀ j inst, i ≤ j → insts[j]? = some inst → inst.opcode ≠ 0 →
    inst.opcode ≠ ebpfOpLddw → checkInst vm insts j inst = .ok ()
  regs : ∀ j inst, i ≤ j → insts[j]? = some inst → inst.opcode ≠ 0 → RegsOk inst

/-- There is no instruction with opcode 0. -/
theorem checkInst_zero (h : checkInst vm insts i inst = .ok ()) : inst.opcode ≠ 0 := by
  intro hop
  have hno : (0 : BitVec 8) ∉ plainOps ∧ (0 : BitVec 8) ∉ storeOps ∧ (0 : BitVec 8) ∉ endianOps
      ∧ (0 : BitVec 8) ∉ jumpOps ∧ (0 : BitVec 8) ≠ ebpfOpCall ∧ (0 : BitVec 8) ∉ divImmOps := by
    decide
  obtain ⟨h₁, h₂, h₃, h₄, h₅, h₆⟩ := hno
  rw [checkInst, hop, if_neg (not_or.mpr ⟨h₁, h₂⟩), if_neg h₃, if_neg h₄, if_neg h₅,
    if_neg h₆] at h
  cases h

theorem acceptedFrom_end (h : insts.length ≤ i) : AcceptedFrom vm insts i := by
  have hnone : ∀ j inst, i ≤ j → insts[j]? ≠ some inst := by
    intro j inst hj he
    exact absurd (List.getElem?_eq_some_iff.mp he).1 (by omega)
  exact ⟨fun inst he => absurd he (hnone i inst (Nat.le_refl i)),
    fun j inst _ hj he => absurd he (hnone j inst hj),
    fun j inst hj he => absurd he (hnone j inst hj),
    fun j inst hj he => absurd he (hnone j inst hj),
    fun j inst hj he => absurd he (hnone j inst hj)⟩

/-- One instruction of a single slot. -/
theorem acceptedFrom_plain (hi : insts[i]? = some inst) (hop : inst.opcode ≠ ebpfOpLddw) :
    AcceptedFrom vm insts i ↔ checkInst vm insts i inst = .ok () ∧ RegsOk inst
      ∧ AcceptedFrom vm insts (i + 1) := by
  constructor
  · intro h
    have hzero := h.first inst hi
    refine ⟨h.checked i inst (Nat.le_refl i) hi hzero hop,
      h.regs i inst (Nat.le_refl i) hi hzero, ?_, fun j x y hj => h.behind j x y (by omega),
      fun j x hj => h.complete j x (by omega), fun j x hj => h.checked j x (by omega),
      fun j x hj => h.regs j x (by omega)⟩
    intro next hnext hc
    exact hop ((h.behind i inst next (Nat.le_refl i) hi hnext).mp hc)
  · rintro ⟨hcheck, hregs, h⟩
    have hzero := checkInst_zero hcheck
    have hcases : ∀ {j}, i ≤ j → j = i ∨ i + 1 ≤ j := fun hj => by omega
    refine ⟨?_, ?_, ?_, ?_, ?_⟩
    · intro x hx
      obtain rfl := Option.some.inj (hi.symm.trans hx)
      exact hzero
    · intro j x y hj hx hy
      rcases hcases hj with rfl | hj
      · obtain rfl := Option.some.inj (hi.symm.trans hx)
        exact ⟨fun hc => absurd hc (h.first y hy), fun hc => absurd hc hop⟩
      · exact h.behind j x y hj hx hy
    · intro j x hj hx hlddw
      rcases hcases hj with rfl | hj
      · obtain rfl := Option.some.inj (hi.symm.trans hx)
        exact absurd hlddw hop
      · exact h.complete j x hj hx hlddw
    · intro j x hj hx hne hnl
      rcases hcases hj with rfl | hj
      · obtain rfl := Option.some.inj (hi.symm.trans hx)
        exact hcheck
      · exact h.checked j x hj hx hne hnl
    · intro j x hj hx hne
      rcases hcases hj with rfl | hj
      · obtain rfl := Option.some.inj (hi.symm.trans hx)
        exact hregs
      · exact h.regs j x hj hx hne

/-- An `LDDW`. -/
theorem acceptedFrom_lddw (hi : insts[i]? = some inst) (hop : inst.opcode = ebpfOpLddw) :
    AcceptedFrom vm insts i ↔ (∃ second, insts[i + 1]? = some second ∧ second.opcode = 0)
      ∧ RegsOk inst ∧ AcceptedFrom vm insts (i + 2) := by
  constructor
  · intro h
    have hlt := h.complete i inst (Nat.le_refl i) hi hop
    have hsecond := List.getElem?_eq_getElem hlt
    have hzero := (h.behind i inst _ (Nat.le_refl i) hi hsecond).mpr hop
    refine ⟨⟨_, hsecond, hzero⟩, h.regs i inst (Nat.le_refl i) hi (by rw [hop]; decide), ?_,
      fun j x y hj => h.behind j x y (by omega), fun j x hj => h.complete j x (by omega),
      fun j x hj => h.checked j x (by omega), fun j x hj => h.regs j x (by omega)⟩
    intro next hnext hc
    have hlddw := (h.behind (i + 1) _ next (by omega) hsecond hnext).mp hc
    rw [hzero] at hlddw
    exact absurd hlddw (by decide)
  · rintro ⟨⟨second, hsecond, hzero⟩, hregs, h⟩
    have hcases : ∀ {j}, i ≤ j → j = i ∨ j = i + 1 ∨ i + 2 ≤ j := fun hj => by omega
    have hne : inst.opcode ≠ 0 := by
      rw [hop]
      decide
    refine ⟨?_, ?_, ?_, ?_, ?_⟩
    · intro x hx
      obtain rfl := Option.some.inj (hi.symm.trans hx)
      exact hne
    · intro j x y hj hx hy
      rcases hcases hj with rfl | rfl | hj
      · obtain rfl := Option.some.inj (hi.symm.trans hx)
        obtain rfl := Option.some.inj (hsecond.symm.trans hy)
        exact ⟨fun _ => hop, fun _ => hzero⟩
      · obtain rfl := Option.some.inj (hsecond.symm.trans hx)
        refine ⟨fun hc => absurd hc (h.first y hy), fun hc => ?_⟩
        rw [hzero] at hc
        exact absurd hc (by decide)
      · exact h.behind j x y hj hx hy
    · intro j x hj hx hlddw
      rcases hcases hj with rfl | rfl | hj
      · exact (List.getElem?_eq_some_iff.mp hsecond).1
      · obtain rfl := Option.some.inj (hsecond.symm.trans hx)
        rw [hzero] at hlddw
        exact absurd hlddw (by decide)
      · exact h.complete j x hj hx hlddw
    · intro j x hj hx hx0 hnl
      rcases hcases hj with rfl | rfl | hj
      · obtain rfl := Option.some.inj (hi.symm.trans hx)
        exact absurd hop hnl
      · obtain rfl := Option.some.inj (hsecond.symm.trans hx)
        exact absurd hzero hx0
      · exact h.checked j x hj hx hx0 hnl
    · intro j x hj hx hx0
      rcases hcases hj with rfl | rfl | hj
      · obtain rfl := Option.some.inj (hi.symm.trans hx)
        exact hregs
      · obtain rfl := Option.some.inj (hsecond.symm.trans hx)
        exact absurd hzero hx0
      · exact h.regs j x hj hx hx0

theorem bind_unit_ok {x y : Except LoadError Unit} :
    (do x; y) = .ok () ↔ x = .ok () ∧ y = .ok () := by
  rw [bind_ok]
  exact ⟨fun ⟨_, hx, hy⟩ => ⟨hx, hy⟩, fun ⟨hx, hy⟩ => ⟨(), hx, hy⟩⟩

theorem getElem?_of_drop {rest : List Insn} (h : insts.drop i = inst :: rest) :
    insts[i]? = some inst := by
  rw [← List.head?_drop, h]
  rfl

theorem drop_succ {rest : List Insn} (h : insts.drop i = inst :: rest) :
    insts.drop (i + 1) = rest := by
  rw [← List.drop_drop, h]
  rfl

theorem validateFrom_ok (vm : UbpfVm) (insts : List Insn) (i : Nat) (rest : List Insn)
    (h : insts.drop i = rest) :
    validateFrom vm insts i rest = .ok () ↔ AcceptedFrom vm insts i := by
  fun_induction validateFrom vm insts i rest with
  | case1 i => exact iff_of_true rfl (acceptedFrom_end (by simpa using h))
  | case2 i inst hop =>
      rw [acceptedFrom_lddw (getElem?_of_drop h) hop]
      refine iff_of_false nofun fun ⟨⟨second, hsecond, _⟩, _⟩ => ?_
      rw [← List.head?_drop, drop_succ h] at hsecond
      cases hsecond
  | case3 i inst hop second rest hne =>
      rw [acceptedFrom_lddw (getElem?_of_drop h) hop]
      refine iff_of_false nofun fun ⟨⟨x, hx, hzero⟩, _⟩ => hne ?_
      rw [getElem?_of_drop (drop_succ h)] at hx
      rw [Option.some.inj hx, hzero]
  | case4 i inst hop second rest hzero ih =>
      have hsecond := getElem?_of_drop (drop_succ h)
      rw [acceptedFrom_lddw (getElem?_of_drop h) hop, bind_unit_ok, checkRegs_ok,
        ih (drop_succ (drop_succ h))]
      exact ⟨fun hr => ⟨⟨second, hsecond, not_not.mp hzero⟩, hr⟩, fun hr => hr.2⟩
  | case5 i inst rest hop ih =>
      rw [acceptedFrom_plain (getElem?_of_drop h) hop, bind_unit_ok, bind_unit_ok, checkRegs_ok,
        ih (drop_succ h)]

/-- **What `validate` accepts.** -/
theorem validate_ok : validate vm insts = .ok () ↔
    insts.length < maxInsts ∧ AcceptedFrom vm insts 0 := by
  unfold validate
  split_ifs with hmax
  · exact iff_of_false nofun fun h => absurd h.1 (by omega)
  · rw [validateFrom_ok vm insts 0 insts List.drop_zero]
    exact (and_iff_right (by omega)).symm

/-! ## Registered functions -/

section Registered

variable {vm' : UbpfVm} {idx : BitVec 32} {name : String} {label : Option String}
  {fn : Option ExtFunc}

theorem ubpfRegister_ok (h : ubpfRegister vm idx label fn = some vm') :
    idx.toNat < maxExtFuncs
      ∧ vm' = { vm with extFuncs := vm.extFuncs.setIfInBounds idx.toNat fn
                        extFuncNames := vm.extFuncNames.setIfInBounds idx.toNat label } := by
  unfold ubpfRegister at h
  split_ifs at h with hmax
  exact ⟨Nat.lt_of_not_le hmax, (Option.some.inj h).symm⟩

/-- At every other index stands what stood there. -/
theorem ubpfRegister_function (h : ubpfRegister vm idx label fn = some vm') :
    vm'.extFuncs[i]?.join = if idx.toNat = i then fn else vm.extFuncs[i]?.join := by
  obtain ⟨hlt, rfl⟩ := ubpfRegister_ok h
  rw [Vector.getElem?_setIfInBounds, if_pos hlt]
  split_ifs <;> rfl

theorem ubpfLookup_eq_some : ubpfLookupRegisteredFunction vm name = some i ↔
    vm.extFuncNames[i]? = some (some name) ∧ ∀ j < i, vm.extFuncNames[j]? ≠ some (some name) := by
  rw [ubpfLookupRegisteredFunction, List.findIdx?_eq_some_iff_getElem]
  simp only [Vector.length_toList, Vector.getElem_toList, beq_iff_eq]
  constructor
  · rintro ⟨hlt, hname, hbefore⟩
    refine ⟨by rw [Vector.getElem?_eq_getElem hlt, hname], fun j hj => ?_⟩
    rw [Vector.getElem?_eq_getElem (Nat.lt_trans hj hlt)]
    exact fun hsame => hbefore j hj (Option.some.inj hsame)
  · rintro ⟨hname, hbefore⟩
    obtain ⟨hlt, hname⟩ := Vector.getElem?_eq_some_iff.mp hname
    refine ⟨hlt, hname, fun j hj hsame => hbefore j hj ?_⟩
    rw [Vector.getElem?_eq_getElem (Nat.lt_trans hj hlt), hsame]

/-- A new name is found where it was registered. -/
theorem ubpfLookup_register (h : ubpfRegister vm idx (some name) fn = some vm')
    (hnew : ∀ j : Nat, vm.extFuncNames[j]? ≠ some (some name)) :
    ubpfLookupRegisteredFunction vm' name = some idx.toNat := by
  obtain ⟨hlt, rfl⟩ := ubpfRegister_ok h
  refine ubpfLookup_eq_some.mpr ⟨Vector.getElem?_setIfInBounds_self_of_lt hlt, fun j hj => ?_⟩
  rw [Vector.getElem?_setIfInBounds_ne (Nat.ne_of_gt hj)]
  exact hnew j

/-- A call of a registered function passes. -/
theorem checkCall_register {f : ExtFunc}
    (h : ubpfRegister vm idx label (some f) = some vm') (himm : inst.imm = idx) :
    checkCall vm' i inst = .ok () := by
  obtain ⟨hlt, -⟩ := ubpfRegister_ok h
  have hint : inst.imm.toInt = idx.toNat := by
    rw [himm, BitVec.toInt_eq_toNat_of_lt (by unfold maxExtFuncs at hlt; omega)]
  rw [checkCall, if_neg (by rw [hint]; omega), himm, ubpfRegister_function h, if_pos rfl]
  rfl

end Registered

/-! ## The bytes of a program -/

theorem readInsts_pack (i : Insn) (code : List (BitVec 8)) :
    readInsts (i.pack ++ code) = i :: readInsts code := by
  have hdst : (i.src ++ i.dst).extractLsb' 0 4 = i.dst := BitVec.extractLsb'_append_eq_right
  have hsrc : (i.src ++ i.dst).extractLsb' 4 4 = i.src := BitVec.extractLsb'_append_eq_left
  have hoffset : getByte i.offset 1 ++ getByte i.offset 0 = i.offset :=
    BitVec.extractLsb'_append_extractLsb'
  have himm : getByte i.imm 3 ++ getByte i.imm 2 ++ getByte i.imm 1 ++ getByte i.imm 0 = i.imm := by
    unfold getByte
    rw [BitVec.extractLsb'_append_extractLsb'_eq_extractLsb' (by rfl),
      BitVec.extractLsb'_append_extractLsb'_eq_extractLsb' (by rfl)]
    exact BitVec.extractLsb'_append_extractLsb'
  rw [Insn.pack]
  simp only [List.cons_append, List.nil_append, readInsts, hdst, hsrc, hoffset, himm]

/-- **The loader reads what the assembler has packed.** -/
theorem readInsts_assemble (insts : List Insn) : readInsts (assemble insts) = insts := by
  induction insts with
  | nil => rfl
  | cons i insts ih =>
      rw [assemble, List.flatMap_cons, readInsts_pack]
      exact congrArg _ ih

/-- What the loader reads is packed to the same bytes again. -/
theorem assemble_readInsts (code : List (BitVec 8)) (h : code.length % 8 = 0) :
    assemble (readInsts code) = code := by
  fun_induction readInsts code with
  | case1 opcode regs o₀ o₁ i₀ i₁ i₂ i₃ code ih =>
      have hrest := ih (by simp only [List.length_cons] at h; omega)
      have hregs : regs.extractLsb' 4 4 ++ regs.extractLsb' 0 4 = regs :=
        BitVec.extractLsb'_append_extractLsb'
      have hlow : ∀ {n} (x : BitVec n) (b : BitVec 8), getByte (x ++ b) 0 = b := fun x b =>
        BitVec.extractLsb'_append_eq_right
      have hhigh : ∀ {n} (x : BitVec n) (b : BitVec 8) (k : Nat),
          getByte (x ++ b) (k + 1) = getByte x k := by
        intro n x b k
        rw [getByte, BitVec.extractLsb'_append_eq_of_le (by omega)]
        exact congrArg (fun s => x.extractLsb' s 8) (by omega)
      have hself : ∀ b : BitVec 8, getByte b 0 = b := fun b => BitVec.extractLsb'_eq_self
      rw [assemble, List.flatMap_cons, Insn.pack]
      dsimp only
      rw [hregs]
      simp only [hlow, hhigh, hself]
      exact congrArg (opcode :: regs :: o₀ :: o₁ :: i₀ :: i₁ :: i₂ :: i₃ :: ·) hrest
  | case2 code hshort =>
      -- fewer than eight bytes that are a whole number of words are none
      rcases code with _ | ⟨b₀, _ | ⟨b₁, _ | ⟨b₂, _ | ⟨b₃, _ | ⟨b₄, _ | ⟨b₅, _ | ⟨b₆, _ | ⟨b₇,
        code⟩⟩⟩⟩⟩⟩⟩⟩
      · rfl
      all_goals first
        | exact absurd rfl (hshort _ _ _ _ _ _ _ _ _)
        | cases h

/-! ## Loading -/

theorem ubpfLoad_ok {vm vm' : UbpfVm} {code : List (BitVec 8)} (h : ubpfLoad vm code = .ok vm') :
    vm' = { vm with insts := some (readInsts code) }
      ∧ (readInsts code).length < maxInsts ∧ AcceptedFrom vm' (readInsts code) 0 := by
  unfold ubpfLoad at h
  split_ifs at h with hloaded hlen
  obtain ⟨_, hvalid, hvm⟩ := bind_ok.mp h
  obtain rfl : _ = vm' := pure_ok.mp hvm
  obtain ⟨hmax, hacc⟩ := validate_ok.mp hvalid
  exact ⟨rfl, hmax, hacc.first, hacc.behind, hacc.complete, hacc.checked, hacc.regs⟩

/-- A program of fewer than 65536 slots that `validate` accepts is loaded as it is, once. -/
theorem ubpfLoad_assemble (vm vm' : UbpfVm) (insts : List Insn) :
    ubpfLoad vm (assemble insts) = .ok vm' ↔ vm.insts = none ∧ insts.length < maxInsts
      ∧ AcceptedFrom vm insts 0 ∧ vm' = { vm with insts := some insts } := by
  have hlen : (assemble insts).length % 8 = 0 := by
    rw [length_assemble, Nat.mul_mod_right]
  unfold ubpfLoad
  rw [readInsts_assemble]
  cases hloaded : vm.insts with
  | some old => exact iff_of_false nofun nofun
  | none =>
      rw [if_neg (by simp), if_neg (not_not.mpr hlen), bind_ok]
      constructor
      · rintro ⟨_, hvalid, hvm⟩
        obtain ⟨hmax, hacc⟩ := validate_ok.mp hvalid
        exact ⟨rfl, hmax, hacc, (pure_ok.mp hvm).symm⟩
      · rintro ⟨-, hmax, hacc, rfl⟩
        exact ⟨(), validate_ok.mpr ⟨hmax, hacc⟩, rfl⟩

/-- **What `ubpf_load` accepts** are the bytes that the assembler makes of such programs, and the
program that it keeps is the one they were made of. -/
theorem ubpfLoad_accepts (vm vm' : UbpfVm) (code : List (BitVec 8)) :
    ubpfLoad vm code = .ok vm' ↔ vm.insts = none ∧ ∃! insts, code = assemble insts
      ∧ insts.length < maxInsts ∧ AcceptedFrom vm insts 0
      ∧ vm' = { vm with insts := some insts } := by
  constructor
  · intro h
    have hlen : code.length % 8 = 0 := by
      unfold ubpfLoad at h
      split_ifs at h with hloaded hlen
      exact not_not.mp hlen
    have hcode := assemble_readInsts code hlen
    rw [← hcode, ubpfLoad_assemble] at h
    obtain ⟨hnone, hmax, hacc, rfl⟩ := h
    refine ⟨hnone, readInsts code, ⟨hcode.symm, hmax, hacc, rfl⟩, ?_⟩
    rintro insts ⟨rfl, -⟩
    exact (readInsts_assemble insts).symm
  · rintro ⟨hnone, insts, ⟨rfl, hmax, hacc, rfl⟩, -⟩
    exact (ubpfLoad_assemble vm _ insts).mpr ⟨hnone, hmax, hacc, rfl⟩

end Ubpf

end VeBpf
