import VeBpf.Proof.Arms
import VeBpf.Proof.Offload
import VeBpf.Proof.Sandbox

/-!
# Converted filters in user space

The converter is made for `ubpf`. There a converted filter finds the packet as its
context and the scratch words at the top of the stack, and what it accesses lies in
one of the two. Immediates are sign-extended, so a comparison with a number from
2³¹ on must be left out: a word without a sign is never equal to it.
-/

namespace VeBpf

open ByteMem Halves Expansion

/-- Comparisons of words without a sign. -/
theorem JumpOp.holds_wide {op : JumpOp} (hs : op.signed = false) (a k : BitVec 32)
    (hk : op = .eq ∨ op = .ne → k.msb = false) :
    op.holds (a.setWidth 64) (if op = .gt ∨ op = .ge ∨ op = .lt ∨ op = .le then k.setWidth 64
      else Ubpf.wide k) = op.holds a k := by
  have hwide : k.msb = false → Ubpf.wide k = k.setWidth 64 := fun hmsb =>
    BitVec.signExtend_eq_setWidth_of_msb_false hmsb
  have hzero := JumpOp.holds_extend hs a k
  cases op with
  | eq => rw [if_neg (by simp), hwide (hk (Or.inl rfl)), hzero]
  | ne => rw [if_neg (by simp), hwide (hk (Or.inr rfl)), hzero]
  | set =>
      rw [if_neg (by simp), ← hzero]
      have hand : a.setWidth 64 &&& Ubpf.wide k = a.setWidth 64 &&& k.setWidth 64 := by
        cases hmsb : k.msb with
        | false => rw [hwide hmsb]
        | true => exact (and_extensions _ hmsb).mpr (upper_zeroExtend a)
      exact congrArg (· != 0) hand
  | gt | ge | lt | le => rw [if_pos (by simp), hzero]
  | sgt | sge | slt | sle => cases hs

namespace Ubpf

open Attempt

/-- 32-bit arithmetic on zero-extended words. -/
theorem aluArm_word {curPc : BitVec 16} {d s : BitVec 64} {imm : BitVec 32} (op : AluOp)
    (reg : Bool) {a b : BitVec 32} (hd : d = a.setWidth 64)
    (hb : if reg then s = b.setWidth 64 else imm = b) (hdiv : op.divides = true → b ≠ 0) :
    aluArm curPc (op.opcode opcAlu reg) d s imm = some (.ok ((op.eval a b).setWidth 64)) := by
  have hlow : u32 (a.setWidth 64) = a := lower_zeroExtend a
  subst hd
  cases hdivides : op.divides with
  | false =>
      have hoperand : (operand reg s imm).setWidth 32 = b := by
        cases reg with
        | true =>
            obtain rfl : s = b.setWidth 64 := hb
            exact lower_zeroExtend b
        | false =>
            obtain rfl : imm = b := hb
            exact lower_signExtend imm
      rw [aluArm_alu32 hdivides, low_eq, u32, AluOp.setWidth_eval hdivides (by omega), hoperand,
        lower_zeroExtend]
  | true =>
      have hb0 := hdiv hdivides
      rw [aluArm_div32 hdivides, hlow]
      cases reg with
      | true =>
          obtain rfl : s = b.setWidth 64 := hb
          have hlowb : u32 (b.setWidth 64) = b := lower_zeroExtend b
          have hne : b.setWidth 64 ≠ 0 := by
            rw [show (0 : BitVec 64) = (0 : BitVec 32).setWidth 64 from rfl, Ne,
              setWidth_inj (by omega)]
            exact hb0
          rw [if_pos rfl, nonZero, if_neg hne, divided, hlowb, if_neg hb0]
      | false =>
          obtain rfl : imm = b := hb
          rw [if_neg (by simp), divided, if_neg hb0]

/-- A 32-bit shift that is not too wide. -/
theorem aluArm_narrow {curPc : BitVec 16} {d s : BitVec 64} {imm : BitVec 32} (op : ShiftOp)
    (reg : Bool) {n : Nat} (hn : n < 32) (hcount : count64 reg s imm = n) :
    aluArm curPc (op.opcode opcAlu reg) d s imm
      = some (.ok ((op.eval (u32 d) n).setWidth 64)) := by
  rw [aluArm_shift32, count32_eq (by omega) hcount]
  exact congrArg some (shifted_of_lt (by split_ifs <;> omega))

/-- A jump has no other arm. -/
theorem jumpArm_alone {op : BitVec 8} {d s : BitVec 64} {imm : BitVec 32} {c : Bool} :
    jumpArm op d s imm = some c → (∀ curPc, aluArm curPc op d s imm = none)
      ∧ ldxArm op = none ∧ storeArm op s imm = none := by
  unfold jumpArm
  repeat' refine of_ite ?_ ?_
  all_goals
    intro hop
    cases hop
  all_goals exact fun _ => ⟨fun _ => rfl, rfl, rfl⟩

namespace Frame

variable {e : Frame} {insts : List Insn} {s s' : State} {i : Insn} {curPc : BitVec 16}

/-! ## Evaluating a turn -/

theorem access_inside {type : AccessType} {addr : BitVec 64} {size : Nat} (hp : e.Placed)
    (hsize : size ≤ 8) (h : e.InMem addr size ∨ e.InStack addr size) :
    e.access type curPc addr size s = .ok s := by
  have hcheck : e.boundsCheck addr size = true := by
    cases he : e.vm.boundsCheckEnabled with
    | false => rw [boundsCheck, he]; rfl
    | true => exact (boundsCheck_iff he hp hsize).mpr (by tauto)
  rw [access, hcheck, if_pos h]
  rfl

theorem step_of_fetch (hi : insts[s.pc.toNat]? = some i) :
    e.step insts s = e.exec insts s.pc i { s with pc := s.pc + 1 } := by
  rw [step, hi]

theorem exec_alu {r : Except Stop (BitVec 64)}
    (h : aluArm curPc i.opcode (s.get i.dst) (s.get i.src) i.imm = some r) :
    e.exec insts curPc i s = r.map (s.set i.dst) := by
  rw [exec, h]

theorem exec_load {n : Nat} (hop : loadWidth i.opcode = some n) :
    e.exec insts curPc i s = e.access .load curPc (s.get i.src + i.offset.signExtend 64) n
      (s.set i.dst (loadLE 64 s.bytes (s.get i.src + i.offset.signExtend 64) n)) := by
  obtain ⟨hldx, halu⟩ := ldxArm_loadWidth hop
  rw [exec, halu]
  dsimp only
  rw [hldx]

theorem exec_store {n : Nat} {v : BitVec 64}
    (hst : storeArm i.opcode (s.get i.src) i.imm = some (n, v)) :
    e.exec insts curPc i s = e.access .store curPc (s.get i.dst + i.offset.signExtend 64) n
      { s with bytes := storeLE s.bytes (s.get i.dst + i.offset.signExtend 64) v n } := by
  obtain ⟨_, _, _, hldx, halu⟩ := storeArm_cases hst
  rw [exec, halu]
  dsimp only
  rw [hldx]
  dsimp only
  rw [hst]

/-- The second slot of an `LDDW` brings the upper half. -/
theorem exec_lddw {second : Insn} (hop : i.opcode = ebpfOpLddw)
    (hsecond : insts[(s.pc + 1).toNat]? = some second) :
    e.exec insts s.pc i { s with pc := s.pc + 1 }
      = .ok { State.set { s with pc := s.pc + 1 } i.dst (second.imm ++ i.imm) with
        pc := s.pc + 1 + 1 } := by
  rw [Frame.exec, hop]
  dsimp only
  rw [hsecond]
  rfl

theorem exec_jump {c : Bool} (h : jumpArm i.opcode (s.get i.dst) (s.get i.src) i.imm = some c) :
    e.exec insts curPc i s = .ok (if c then { s with pc := s.pc + i.offset } else s) := by
  obtain ⟨halu, hldx, hst⟩ := jumpArm_alone h
  rw [exec, halu]
  dsimp only
  rw [hldx]
  dsimp only
  rw [hst]
  dsimp only
  rw [h]

end Frame

/-! ## A filter in the interpreter -/

/-- Where scratch word `k` lies. -/
def scratchAt (e : Frame) (k : Nat) : BitVec 64 :=
  e.stack + BitVec.ofNat 64 stackSize + (Filter.scratch k).signExtend 64

theorem toNat_scratchAt {e : Frame} (hp : e.Placed) {k : Nat} (hk : k < 16) :
    (scratchAt e k).toNat = e.stack.toNat + 124 - 4 * k := by
  have hext : ∀ k < 16, ((Filter.scratch k).signExtend 64).toNat = 2 ^ 64 - 4 * (k + 1) := by decide
  have hstack := hp.stack
  unfold stackSize at hstack
  rw [scratchAt, BitVec.toNat_add, BitVec.toNat_add, hext k hk, BitVec.toNat_ofNat]
  unfold stackSize
  omega

/-- What `ubpf_exec` is given for a converted filter. -/
structure Serves (e : Frame) (code : List Insn) (data : List (BitVec 8)) : Prop where
  placed : e.Placed
  length : code.length < maxInsts
  context : e.mem ≠ 0
  room : data.length ≤ e.memLen.toNat
  apart : e.mem.toNat + e.memLen.toNat ≤ e.stack.toNat
    ∨ e.stack.toNat + stackSize ≤ e.mem.toNat
  compares : ∀ i ∈ code, i.opcode = ebpfOpJeqImm ∨ i.opcode = ebpfOpJneImm → i.imm.msb = false

/-- The state is where the filter is. -/
structure OnVm (e : Frame) (data : List (BitVec 8)) (f : Filter) (s : State) : Prop where
  pc : s.pc.toNat = f.pc
  base : s.get C2e.r1 = e.mem
  frame : s.get C2e.r10 = e.stack + BitVec.ofNat 64 stackSize
  acc : ∀ r : Filter.Acc, s.get r.reg = (f.get r).setWidth 64
  tmp : ∀ t, f.tmp = some t → s.get C2e.regTmp = e.mem + t
  packet : HoldsBytes s.bytes e.mem data
  scratch : Filter.HoldsScratch s.bytes (scratchAt e) f.mem

namespace OnVm

variable {e : Frame} {code : List Insn} {data : List (BitVec 8)} {f f' : Filter} {s : State}
  {i : Insn} {v : BitVec 32}

/-- Set a register. -/
theorem set (h : OnVm e data f s) (hpc : (s.pc + 1).toNat = s.pc.toNat + 1) (r : Filter.Acc)
    (v : BitVec 32) :
    OnVm e data (f.set r v) (State.set { s with pc := s.pc + 1 } r.reg (v.setWidth 64)) where
  pc := by
    rw [State.set_pc, Filter.set_pc, ← h.pc]
    exact hpc
  base := (State.get_set_of_ne (by cases r <;> decide)).trans h.base
  frame := (State.get_set_of_ne (by cases r <;> decide)).trans h.frame
  acc := by
    intro q
    cases r <;> cases q
    · exact State.get_set_self
    · exact (State.get_set_of_ne (by decide)).trans (h.acc .x)
    · exact (State.get_set_of_ne (by decide)).trans (h.acc .a)
    · exact State.get_set_self
  tmp := by
    intro t ht
    rw [Filter.set_tmp] at ht
    exact (State.get_set_of_ne (by cases r <;> decide)).trans (h.tmp t ht)
  packet := h.packet
  scratch := by
    rw [Filter.set_mem]
    exact h.scratch

/-- Set the temporary register. -/
theorem setTmp (h : OnVm e data f s) (hpc : (s.pc + 1).toNat = s.pc.toNat + 1) (t : BitVec 64) :
    OnVm e data { f with tmp := some t, pc := f.pc + 1 }
      (State.set { s with pc := s.pc + 1 } C2e.regTmp (e.mem + t)) where
  pc := by
    rw [State.set_pc, ← h.pc]
    exact hpc
  base := (State.get_set_of_ne (by decide)).trans h.base
  frame := (State.get_set_of_ne (by decide)).trans h.frame
  acc := by
    intro q
    refine (State.get_set_of_ne (by cases q <;> decide)).trans ((h.acc q).trans ?_)
    cases q <;> rfl
  tmp := by
    intro t' ht'
    obtain rfl := Option.some.inj ht'
    exact State.get_set_self
  packet := h.packet
  scratch := h.scratch

/-- Store to a scratch word. The packet is elsewhere. -/
theorem store (h : OnVm e data f s) (hs : Serves e code data)
    (hpc : (s.pc + 1).toNat = s.pc.toNat + 1) {k : Nat} (hk : k < 16) (v : BitVec 32) :
    OnVm e data { f with mem := f.mem.setIfInBounds k v, pc := f.pc + 1 }
      { s with pc := s.pc + 1
               bytes := storeLE s.bytes (scratchAt e k) (v.setWidth 64) 4 } where
  pc := by
    rw [← h.pc]
    exact hpc
  base := h.base
  frame := h.frame
  acc := h.acc
  tmp := h.tmp
  packet := by
    intro j x hj
    obtain ⟨hlt, -⟩ := List.getElem?_eq_some_iff.mp hj
    refine (storeLE_outside _ _ _ ?_).trans (h.packet j x hj)
    have hmem := hs.placed.mem
    have hstack := hs.placed.stack
    have hroom := hs.room
    have hapart := hs.apart
    unfold stackSize at hstack hapart
    rw [BitVec.toNat_sub, BitVec.toNat_add, toNat_scratchAt hs.placed hk, BitVec.toNat_ofNat]
    omega
  scratch := by
    refine h.scratch.store (by decide) ?_ hk v
    intro j k i hj hk hne hi
    have hstack := hs.placed.stack
    unfold stackSize at hstack
    rw [BitVec.toNat_sub, BitVec.toNat_add, toNat_scratchAt hs.placed hk,
      toNat_scratchAt hs.placed hj, BitVec.toNat_ofNat]
    omega

/-- A context access is inside. -/
theorem inMem (hs : Serves e code data) {k n : Nat} (hin : k + n ≤ data.length) :
    e.InMem (e.mem + BitVec.ofNat 64 k) n := by
  have hmem := hs.placed.mem
  have hroom := hs.room
  have haddr : (e.mem + BitVec.ofNat 64 k).toNat = e.mem.toNat + k := by
    rw [BitVec.toNat_add, BitVec.toNat_ofNat]
    omega
  refine ⟨hs.context, ?_, ?_⟩ <;> rw [haddr] <;> omega

theorem inStack (hs : Serves e code data) {k : Nat} (hk : k < 16) :
    e.InStack (scratchAt e k) 4 := by
  have hat := toNat_scratchAt hs.placed hk
  constructor
  · omega
  · rw [hat, stackSize]
    omega

/-- The address of a load behind the packet register. -/
theorem packetAddress {off : BitVec 16} (hoff : off.toNat < 2 ^ 15) (t : BitVec 64) :
    e.mem + t + off.signExtend 64 = e.mem + BitVec.ofNat 64 (t.toNat + off.toNat) := by
  have hmsb : off.msb = false := by
    rw [BitVec.msb_eq_decide]
    exact decide_eq_false (by omega)
  rw [BitVec.signExtend_eq_setWidth_of_msb_false hmsb, BitVec.add_assoc]
  congr 1

/-- A turn that sets one of the two registers. -/
theorem sets (h : OnVm e data f s) (hs : Serves e code data) (hi : code[f.pc]? = some i)
    (r : Filter.Acc) (hdst : i.dst = r.reg)
    (harm : aluArm s.pc i.opcode (s.get i.dst) (s.get i.src) i.imm
      = some (.ok (v.setWidth 64))) :
    ∃ s', e.step code s = .ok s' ∧ OnVm e data (f.set r v) s' := by
  rw [← h.pc] at hi
  have hpc := Frame.toNat_succ (List.getElem?_eq_some_iff.mp hi).1 hs.length
  have hexec : e.exec code s.pc i { s with pc := s.pc + 1 }
      = .ok (State.set { s with pc := s.pc + 1 } i.dst (v.setWidth 64)) :=
    @Frame.exec_alu e code { s with pc := s.pc + 1 } i s.pc _ harm
  rw [hdst] at hexec
  exact ⟨_, (Frame.step_of_fetch hi).trans hexec, h.set hpc r v⟩

/-- A turn that sets the temporary register. -/
theorem tmp_step (h : OnVm e data f s) (hs : Serves e code data) (hi : code[f.pc]? = some i)
    (t : BitVec 64) (hdst : i.dst = C2e.regTmp)
    (harm : aluArm s.pc i.opcode (s.get i.dst) (s.get i.src) i.imm = some (.ok (e.mem + t))) :
    ∃ s', e.step code s = .ok s' ∧ OnVm e data { f with tmp := some t, pc := f.pc + 1 } s' := by
  rw [← h.pc] at hi
  have hpc := Frame.toNat_succ (List.getElem?_eq_some_iff.mp hi).1 hs.length
  have hexec : e.exec code s.pc i { s with pc := s.pc + 1 }
      = .ok (State.set { s with pc := s.pc + 1 } i.dst (e.mem + t)) :=
    @Frame.exec_alu e code { s with pc := s.pc + 1 } i s.pc _ harm
  rw [hdst] at hexec
  exact ⟨_, (Frame.step_of_fetch hi).trans hexec, h.setTmp hpc t⟩

theorem load_step (h : OnVm e data f s) (hs : Serves e code data) (hi : code[f.pc]? = some i)
    (r : Filter.Acc) {n : Nat} {addr : BitVec 64} (hop : loadWidth i.opcode = some n)
    (hdst : i.dst = r.reg) (hn : n ≤ 8) (haddr : s.get i.src + i.offset.signExtend 64 = addr)
    (hin : e.InMem addr n ∨ e.InStack addr n) (hv : loadLE 64 s.bytes addr n = v.setWidth 64) :
    ∃ s', e.step code s = .ok s' ∧ OnVm e data (f.set r v) s' := by
  subst haddr
  rw [← h.pc] at hi
  have hpc := Frame.toNat_succ (List.getElem?_eq_some_iff.mp hi).1 hs.length
  have hexec := (@Frame.exec_load e code { s with pc := s.pc + 1 } i s.pc n hop).trans
    (Frame.access_inside hs.placed hn hin)
  have hload : loadLE 64 (State.bytes { s with pc := s.pc + 1 })
      (State.get { s with pc := s.pc + 1 } i.src + i.offset.signExtend 64) n = v.setWidth 64 := hv
  rw [hload, hdst] at hexec
  exact ⟨_, (Frame.step_of_fetch hi).trans hexec, h.set hpc r v⟩

theorem jump_step (h : OnVm e data f s) (hs : Serves e code data) (hi : code[f.pc]? = some i)
    (c : Bool) (hin : f.pc + 1 + (if c then i.offset.toNat else 0) < code.length)
    (harm : jumpArm i.opcode (s.get i.dst) (s.get i.src) i.imm = some c) :
    ∃ s', e.step code s = .ok s'
      ∧ OnVm e data { f with pc := f.pc + 1 + if c then i.offset.toNat else 0 } s' := by
  have hlen := hs.length
  unfold maxInsts at hlen
  rw [← h.pc] at hi
  have hpc := Frame.toNat_succ (List.getElem?_eq_some_iff.mp hi).1 hs.length
  refine ⟨_, (Frame.step_of_fetch hi).trans (Frame.exec_jump harm), ?_⟩
  cases c with
  | false =>
      refine ⟨?_, h.base, h.frame, h.acc, h.tmp, h.packet, h.scratch⟩
      rw [if_neg (by simp), if_neg (by simp), ← h.pc]
      exact hpc
  | true =>
      refine ⟨?_, h.base, h.frame, h.acc, h.tmp, h.packet, h.scratch⟩
      rw [if_pos rfl] at hin
      rw [if_pos rfl, if_pos rfl, BitVec.toNat_add]
      dsimp only
      rw [hpc, h.pc]
      omega

/-- A store to a scratch word. -/
theorem store_step (h : OnVm e data f s) (hs : Serves e code data) (r : Filter.Acc) {k : Nat}
    (hk : k < 16) (hi : code[f.pc]? = some ⟨ebpfOpStxw, C2e.r10, r.reg, Filter.scratch k, 0⟩) :
    ∃ s', e.step code s = .ok s'
      ∧ OnVm e data { f with mem := f.mem.setIfInBounds k (f.get r), pc := f.pc + 1 } s' := by
  rw [← h.pc] at hi
  have hpc := Frame.toNat_succ (List.getElem?_eq_some_iff.mp hi).1 hs.length
  have hst : storeArm ebpfOpStxw (s.get r.reg) 0 = some (4, s.get r.reg) := rfl
  have haddr : s.get C2e.r10 + (Filter.scratch k).signExtend 64 = scratchAt e k := by
    rw [h.frame]
    rfl
  have hin := inStack hs hk
  rw [← haddr] at hin
  refine ⟨_, (Frame.step_of_fetch hi).trans
    ((Frame.exec_store hst).trans (Frame.access_inside hs.placed (by omega) (Or.inr hin))), ?_⟩
  have hnext := h.store hs hpc hk (f.get r)
  rw [← h.acc r, ← haddr] at hnext
  exact hnext

theorem be_step (h : OnVm e data f s) (hs : Serves e code data) {n : Nat} (hn : n = 2 ∨ n = 4)
    (hi : code[f.pc]? = some ⟨ebpfOpBe, C2e.regA, 0, 0, BitVec.ofNat 32 (8 * n)⟩) :
    ∃ s', e.step code s = .ok s' ∧ OnVm e data (f.set .a (Filter.swap n f.a)) s' := by
  have hendian : ∀ (d : BitVec 64) (g : Nat → BitVec 64),
      endian (BitVec.ofNat 32 (8 * n)) d g = g n := by
    rcases hn with rfl | rfl <;> exact fun _ _ => rfl
  have hd : s.get C2e.regA = f.a.setWidth 64 := h.acc .a
  have harm : aluArm s.pc ebpfOpBe (s.get C2e.regA) (s.get 0) (BitVec.ofNat 32 (8 * n))
      = some (.ok (endian (BitVec.ofNat 32 (8 * n)) (s.get C2e.regA)
        (ByteOrder.swapped (s.get C2e.regA)))) := rfl
  rw [hendian, hd, Filter.swapped_zeroExtend (by omega), ← hd] at harm
  exact h.sets hs hi .a rfl harm

/-- **One instruction of a filter in the interpreter.** -/
theorem step (h : OnVm e data f s) (hs : Serves e code data) (hi : code[f.pc]? = some i)
    (hn : Filter.Next data i f f') (hin : f'.pc < code.length) :
    ∃ s', e.step code s = .ok s' ∧ OnVm e data f' s' := by
  have hlow : ∀ r : Filter.Acc, u32 (s.get r.reg) = f.get r := fun r => by
    rw [h.acc]
    exact lower_zeroExtend _
  cases hn with
  | alu op r k _ hdiv => exact h.sets hs hi r rfl (aluArm_word op false (h.acc r) rfl hdiv)
  | aluReg op r q _ hdiv =>
      exact h.sets hs hi r rfl (aluArm_word op true (h.acc r) (h.acc q) hdiv)
  | shift op r k _ hk =>
      exact h.sets hs hi r rfl (hlow r ▸ aluArm_narrow op false hk rfl)
  | shiftReg op r q _ hk =>
      have hcount : (s.get q.reg).toNat = (f.get q).toNat := by
        rw [h.acc, toNat_zeroExtend]
      exact h.sets hs hi r rfl (hlow r ▸ aluArm_narrow op true hk hcount)
  | load op n r off _ hop hle hoff hlen =>
      have hat : (0 : BitVec 64).toNat + off.toNat = off.toNat := Nat.zero_add _
      have hzero : e.mem + 0 = e.mem := BitVec.add_zero _
      have haddr := packetAddress (e := e) hoff 0
      rw [hzero, hat] at haddr
      refine h.load_step hs hi r hop rfl (by omega) (h.base ▸ haddr) (Or.inl (inMem hs hlen)) ?_
      exact Filter.loadLE_packetWord h.packet hle hlen
  | loadAt op n r off t _ hop hle hoff htmp hlen =>
      have haddr := packetAddress (e := e) hoff t
      refine h.load_step hs hi r hop rfl (by omega) (h.tmp t htmp ▸ haddr)
        (Or.inl (inMem hs hlen)) ?_
      exact Filter.loadLE_packetWord h.packet hle hlen
  | packet =>
      have hzero : s.get C2e.r1 = e.mem + 0 := h.base.trans (BitVec.add_zero _).symm
      have harm : aluArm s.pc ebpfOpMov64Reg (s.get C2e.regTmp) (s.get C2e.r1) 0
          = some (.ok (e.mem + 0)) := congrArg (fun v => some (Except.ok v)) hzero
      exact h.tmp_step hs hi 0 rfl harm
  | packetX t _ htmp =>
      have hx : s.get C2e.regX = f.x.setWidth 64 := h.acc .x
      have hsum : s.get C2e.regTmp + s.get C2e.regX = e.mem + (t + f.x.setWidth 64) := by
        rw [h.tmp t htmp, hx, BitVec.add_assoc]
      have harm : aluArm s.pc ebpfOpAdd64Reg (s.get C2e.regTmp) (s.get C2e.regX) 0
          = some (.ok (e.mem + (t + f.x.setWidth 64))) :=
        congrArg (fun v => some (Except.ok v)) hsum
      exact h.tmp_step hs hi _ rfl harm
  | be n _ hwidth => exact h.be_step hs hwidth hi
  | fetch r k v _ hv =>
      have hk : k < 16 := (Vector.getElem?_eq_some_iff.mp hv).1
      have hop : loadWidth ebpfOpLdxw = some 4 := by decide
      exact h.load_step hs hi r hop rfl (by omega) (congrArg (· + _) h.frame)
        (Or.inr (inStack hs hk)) (h.scratch k v hv)
  | store r k _ hk => exact h.store_step hs r hk hi
  | ja off _ hoff => exact h.jump_step hs hi true hin rfl
  | jmp op k off _ hsigned hoff =>
      have hcompares := hs.compares _ (List.mem_of_getElem? hi)
      have hk : op = .eq ∨ op = .ne → k.msb = false := by
        rintro (rfl | rfl)
        · exact hcompares (Or.inl rfl)
        · exact hcompares (Or.inr rfl)
      have hd : s.get C2e.regA = f.a.setWidth 64 := h.acc .a
      have harm : jumpArm (op.opcode false) (s.get C2e.regA) (s.get 0) k
          = some (op.holds f.a k) := by
        rw [jumpArm_conditional, if_neg (by simp), hd, JumpOp.holds_wide hsigned f.a k hk]
      exact h.jump_step hs hi (op.holds f.a k) hin harm
  | jmpReg op off _ hsigned hoff =>
      have hd : s.get C2e.regX = f.x.setWidth 64 := h.acc .x
      have hsrc : s.get C2e.r0 = f.a.setWidth 64 := h.acc .a
      have harm : jumpArm (op.opcode true) (s.get C2e.regX) (s.get C2e.r0) 0
          = some (op.holds f.x f.a) := by
        rw [jumpArm_conditional, if_pos rfl, hd, hsrc, op.holds_extend hsigned]
      exact h.jump_step hs hi (op.holds f.x f.a) hin harm

/-- **A filter in the interpreter.** -/
theorem runs (hs : Serves e code data) (hf : Filter.Returns code data f v) (h : OnVm e data f s) :
    ∃ s', Reaches (e.step code) s s' ∧ e.step code s' = .error (.exit (v.setWidth 64))
      ∧ HoldsBytes s'.bytes e.mem data := by
  induction hf generalizing s with
  | ret fetch hret =>
      obtain ⟨rfl, rfl⟩ := hret
      refine ⟨s, .refl, ?_, h.packet⟩
      rw [← h.pc] at fetch
      have hexit : e.exec code s.pc C2e.exit { s with pc := s.pc + 1 }
          = .error (.exit (s.get C2e.regA)) := rfl
      rw [Frame.step_of_fetch fetch, hexit]
      exact congrArg (fun w => Except.error (Stop.exit w)) (h.acc .a)
  | next fetch hn rest ih =>
      obtain ⟨t, hstep, ht⟩ := h.step hs fetch hn rest.lt
      obtain ⟨s', hrun, hstop⟩ := ih ht
      exact ⟨s', .head hstep hrun, hstop⟩

end OnVm

/-! ## A converted program in the interpreter -/

namespace Frame

variable {checks : Bool} {insns : List Cbpf.BpfInsn} {code : List Insn} {data : List (BitVec 8)}
  {e : Frame} {s s' : State} {vm : UbpfVm} {reg : Vector (BitVec 64) 16} {bytes : Memory}
  {v : BitVec 32}

/-- Turns that go on and one that stops are a loop. -/
theorem loop_of_reaches {stop : Stop} (h : Reaches (e.step code) s s')
    (hstop : e.step code s' = .error stop) : ∃ fuel, e.loop code fuel s = some (stop, s') := by
  induction h using Relation.ReflTransGen.head_induction_on with
  | refl => exact ⟨1, by rw [loop, hstop]⟩
  | head hstep _ ih =>
      obtain ⟨fuel, hloop⟩ := ih
      exact ⟨fuel + 1, by rw [loop, hstep]; exact hloop⟩

/-- `mov32` of zero, whatever the register held. -/
theorem step_clear (hlen : code.length < maxInsts) {r : BitVec 4}
    (hi : code[s.pc.toNat]? = some ⟨ebpfOpMovImm, r, 0, 0, 0⟩) :
    e.step code s = .ok (State.set { s with pc := s.pc + 1 } r 0)
      ∧ (s.pc + 1).toNat = s.pc.toNat + 1 := by
  have harm : aluArm s.pc ebpfOpMovImm (s.get r) (s.get 0) 0 = some (.ok 0) := rfl
  have hexec : e.exec code s.pc ⟨ebpfOpMovImm, r, 0, 0, 0⟩ { s with pc := s.pc + 1 }
      = .ok (State.set { s with pc := s.pc + 1 } r 0) :=
    @exec_alu e code { s with pc := s.pc + 1 } ⟨ebpfOpMovImm, r, 0, 0, 0⟩ s.pc (.ok 0) harm
  exact ⟨(step_of_fetch hi).trans hexec,
    toNat_succ (List.getElem?_eq_some_iff.mp hi).1 hlen⟩

theorem start_context : (e.start reg bytes).get C2e.r1 = e.mem :=
  (Vector.getElem_set_ne (by decide) (by decide) (by decide)).trans (Vector.getElem_set_self _)

/-- The first two turns clear the registers of the filter. -/
theorem start_onVm (hconv : C2e.convert checks insns = .ok code) (hs : Serves e code data)
    (hpacket : HoldsBytes bytes e.mem data)
    (hzero : ∀ a : BitVec 64, e.stack.toNat + 64 ≤ a.toNat → a.toNat < e.stack.toNat + stackSize →
      bytes a = 0) :
    ∃ s, Reaches (e.step code) (e.start reg bytes) s
      ∧ OnVm e data ⟨2, 0, 0, none, Vector.replicate 16 0⟩ s := by
  have hinit := C2e.convert_init hconv
  obtain ⟨hfirst, hpc₁⟩ := @step_clear code e (e.start reg bytes) hs.length _ (hinit 0 _ rfl)
  obtain ⟨hsecond, hpc₂⟩ := @step_clear code e
    (State.set { e.start reg bytes with pc := (e.start reg bytes).pc + 1 } C2e.regA 0) hs.length _
    (hinit 1 _ rfl)
  have hcontext := @start_context e reg bytes
  have htop : (e.start reg bytes).get C2e.r10 = e.stack + BitVec.ofNat 64 stackSize :=
    Vector.getElem_set_self _
  refine ⟨_, .head hfirst (.single hsecond), rfl, ?_, ?_, ?_, nofun, hpacket, ?_⟩
  · exact (State.get_set_of_ne (by decide)).trans ((State.get_set_of_ne (by decide)).trans hcontext)
  · exact (State.get_set_of_ne (by decide)).trans ((State.get_set_of_ne (by decide)).trans htop)
  · intro r
    cases r with
    | a => exact (State.get_set_of_ne (by decide)).trans State.get_set_self
    | x => exact State.get_set_self
  · intro k u hu
    obtain ⟨hk, rfl⟩ := Vector.getElem?_eq_some_iff.mp hu
    have hstack := hs.placed.stack
    rw [Vector.getElem_replicate]
    refine loadLE_zero fun i hi => ?_
    have hat : (scratchAt e k + BitVec.ofNat 64 i).toNat = e.stack.toNat + 124 - 4 * k + i := by
      unfold stackSize at hstack
      rw [BitVec.toNat_add, toNat_scratchAt hs.placed hk, BitVec.toNat_ofNat]
      omega
    exact hzero _ (by omega) (by unfold stackSize; omega)

/-- **A classic filter in user space.** The converted program has been loaded, the packet is the
context, and the last 64 bytes of the stack are zero. Then `ubpf_exec` returns what the
interpreter of classic BPF returns, and leaves the packet as it is. -/
theorem ubpfExec_filter (hconv : C2e.convert checks insns = .ok code) (hcode : code.length < 2 ^ 15)
    (hdata : data.length ≤ 2 ^ 15) (hne : insns ≠ [])
    (hwrap : checks = false → ∀ insn ∈ insns, insn.WrapsAlike)
    (hv : C2e.Decides checks insns data v)
    (hload : ubpfLoad vm (assemble code) = .ok e.vm) (hs : Serves e code data)
    (hpacket : HoldsBytes bytes e.mem data)
    (hzero : ∀ a : BitVec 64, e.stack.toNat + 64 ≤ a.toNat → a.toNat < e.stack.toNat + stackSize →
      bytes a = 0) :
    ∃ fuel bytes', e.ubpfExec reg bytes fuel = some (some (v.setWidth 64), bytes')
      ∧ HoldsBytes bytes' e.mem data := by
  obtain ⟨s, hclear, hstart⟩ := start_onVm hconv hs hpacket hzero
  obtain ⟨s', hreach, hstop, hkept⟩ := hstart.runs hs
    (C2e.convert_returns_cleared hconv hcode hdata hne hwrap hv rfl ⟨rfl, rfl, rfl⟩)
  obtain ⟨fuel, hloop⟩ := loop_of_reaches (hclear.trans hreach) hstop
  have hvm := (ubpfLoad_ok hload).1
  refine ⟨fuel, s'.bytes, ?_, hkept⟩
  rw [ubpfExec, show e.vm.insts = some code by rw [hvm, readInsts_assemble]]
  dsimp only
  rw [hloop]
  rfl

/-- The converted ARP filter, loaded, and an ARP packet for its context. -/
def arp : Frame where
  vm := { ubpfCreate with insts := some C2e.arpProgram }
  mem := 0x1000
  memLen := 14
  stack := 0x2000

/-- The packet, and zeros around it. -/
def arpMemory : Memory := fun a =>
  if 0x1000 ≤ a.toNat then (C2e.arpBytes[a.toNat - 0x1000]?).getD 0 else 0

theorem ubpfExec_filter_arp : ∃ fuel bytes',
    arp.ubpfExec (Vector.replicate 16 7) arpMemory fuel = some (some 0xffffffff, bytes')
      ∧ HoldsBytes bytes' 0x1000 C2e.arpBytes := by
  have hconv : C2e.convert true C2e.arpFilter = .ok C2e.arpProgram := rfl
  have hload : ubpfLoad ubpfCreate (assemble C2e.arpProgram) = .ok arp.vm := rfl
  have hs : Serves arp C2e.arpProgram C2e.arpBytes :=
    ⟨⟨by decide, by decide⟩, by decide, by decide, by decide, by decide, by decide⟩
  have hpacket : HoldsBytes arpMemory arp.mem C2e.arpBytes := by
    intro i x hx
    have hi : i < 14 := (List.getElem?_eq_some_iff.mp hx).1
    have hat : (arp.mem + BitVec.ofNat 64 i).toNat = 0x1000 + i := by
      rw [BitVec.toNat_add, BitVec.toNat_ofNat, show arp.mem.toNat = 0x1000 by rfl]
      omega
    rw [arpMemory, hat, if_pos (by omega), Nat.add_sub_cancel_left, hx]
    rfl
  refine ubpfExec_filter hconv (by decide) (by decide) nofun nofun C2e.decides_arp hload hs hpacket ?_
  intro a ha _
  have hstack : arp.stack.toNat = 0x2000 := rfl
  have hout : C2e.arpBytes.length ≤ a.toNat - 0x1000 := by
    rw [show C2e.arpBytes.length = 14 by rfl]
    omega
  rw [arpMemory, if_pos (by omega), List.getElem?_eq_none hout]
  rfl

end Frame

end Ubpf

end VeBpf
