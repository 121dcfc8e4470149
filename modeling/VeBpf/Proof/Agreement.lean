import VeBpf.Proof.UserSpace

/-!
# The core and the interpreter

`ubpf` runs the programs of the core in user space. The core has no stack of its own,
extends the sign of no immediate, compares signed numbers by their low halves and does
not cut a `MOV` between registers. A program that keeps away from these does on the
core what it does in `ubpf_exec`, if the data memory is an image of the context and of
the stack. A division that `ubpf_exec` refuses ends on the core with an error. And
what never ends in `ubpf_exec` never ends on the core.
-/

namespace VeBpf

open ByteMem Halves HexText

namespace Ubpf

open Attempt

/-! ## Instructions that are the same -/

/-- The instructions that do the same on the core and in the interpreter. -/
inductive Portable (i : Insn) : Prop
  | alu32 (op : AluOp) (reg : Bool) (hop : i.opcode = op.opcode opcAlu reg)
      (hmov : op = .mov → reg = false)
  | alu64 (op : AluOp) (reg : Bool) (hop : i.opcode = op.opcode opcAlu64 reg)
      (hneg : op = .neg → i.src = i.dst) (himm : reg = false → i.imm.msb = false)
  | shift32 (op : ShiftOp) (reg : Bool) (hop : i.opcode = op.opcode opcAlu reg)
  | shift64 (op : ShiftOp) (reg : Bool) (hop : i.opcode = op.opcode opcAlu64 reg)
  | endian (hop : i.opcode = ebpfOpLe ∨ i.opcode = ebpfOpBe)
  | load (n : Nat) (hop : loadWidth i.opcode = some n)
  | store (hop : i.opcode ∈ storeOps) (himm : i.opcode = ebpfOpStdw → i.imm.msb = false)
  | jump (op : JumpOp) (reg : Bool) (hop : i.opcode = op.opcode reg) (hsigned : op.signed = false)
      (himm : op = .eq ∨ op = .ne ∨ op = .set → reg = false → i.imm.msb = false)
  | ja (hop : i.opcode = ebpfOpJa)
  | lddw (hop : i.opcode = ebpfOpLddw)
  | second (hop : i.opcode = 0)
  | exit (hop : i.opcode = ebpfOpExit)

/-- The stops at a division. -/
def Stop.divides : Stop → Bool
  | .divisionByZero _ => true
  | .undefined .division => true
  | _ => false

/-- What the core does with an instruction for which the arm is `r`. -/
inductive Does (m : Machine) (i : Insn) : Except Stop (BitVec 64) → Prop
  | set {v : BitVec 64} (h : m.dispatch i.word = m.set i.dst v) : Does m i (.ok v)
  | divide {stop : Stop} (hstop : stop.divides = true)
      (h : ∃ m' : Machine, m.dispatch i.word = m'.fail ∧ m'.mem = m.mem) : Does m i (.error stop)
  | shift : Does m i (.error (.undefined .shift))

theorem RegsOk.dst_le {i : Insn} (h : RegsOk i) : i.dst.toNat ≤ 10 := by
  rcases h.2 with hlow | ⟨_, h10⟩
  · omega
  · rw [h10]
    decide

section Arms

variable {m : Machine} {i : Insn} {curPc : BitVec 16} {reg : Bool}

theorem operand_word (m : Machine) (i : Insn) (reg : Bool) :
    m.operand i.word reg = if reg then m.regs.read i.src else i.imm.setWidth 64 := by
  rw [Machine.operand, i.srcOf_word, i.immediateOf_word]

theorem low32_operand (m : Machine) (i : Insn) (reg : Bool) :
    u32 (m.operand i.word reg) = u32 (operand reg (m.regs.read i.src) i.imm) := by
  rw [operand_word]
  cases reg with
  | true => rfl
  | false => exact (lower_zeroExtend i.imm).trans (lower_signExtend i.imm).symm

/-- Immediates without a sign are the same either way. -/
theorem operand_eq (himm : reg = false → i.imm.msb = false) :
    m.operand i.word reg = operand reg (m.regs.read i.src) i.imm := by
  rw [operand_word]
  cases reg with
  | true => rfl
  | false => exact (BitVec.signExtend_eq_setWidth_of_msb_false (himm rfl)).symm

theorem low_eval {op : AluOp} (hdiv : op.divides = false) (d x : BitVec 64) :
    low (op.eval d x) = (op.eval (u32 d) (u32 x)).setWidth 64 := by
  rw [low_eq, u32, AluOp.setWidth_eval hdiv (by omega), u32, u32]

theorem does_alu32 {op : AluOp} (hdiv : op.divides = false)
    (hop : i.opcode = op.opcode opcAlu reg) (hmov : op = .mov → reg = false) :
    ∃ r, aluArm curPc i.opcode (m.regs.read i.dst) (m.regs.read i.src) i.imm = some r
      ∧ Does m i r := by
  have hword : opcodeOf i.word = op.opcode opcAlu reg := i.opcodeOf_word.trans hop
  have hlow : ∀ x, low32 (op.eval (m.regs.read i.dst) x)
      = (op.eval (u32 (m.regs.read i.dst)) (u32 x)).setWidth 64 := low_eval hdiv _
  rw [hop, aluArm_alu32 hdiv, low_eval hdiv, ← low32_operand]
  refine ⟨_, rfl, .set ?_⟩
  rw [Machine.dispatch_alu32 hdiv hword, i.dstOf_word, hlow]
  split_ifs with hm
  · obtain rfl := hmov hm
    subst hm
    rw [operand_word, if_neg (by simp)]
    exact congrArg (m.set i.dst) (congrArg (BitVec.setWidth 64) (lower_zeroExtend i.imm)).symm
  · rfl

/-- The core divides, or refuses to. -/
theorem arith_divide {w a b : BitVec 64} {rem : Bool} {keep : BitVec 64 → BitVec 64} :
    (b ≠ 0 ∧ m.arith w (some ⟨a, b, rem⟩) none keep none
        = m.set (dstOf w) (DivRequest.result ⟨a, b, rem⟩))
      ∨ (b = 0 ∧ ∃ m' : Machine, m.arith w (some ⟨a, b, rem⟩) none keep none = m'.fail
        ∧ m'.mem = m.mem) := by
  show (_ ∧ (if b = 0 then _ else _) = _) ∨ (_ ∧ ∃ m' : Machine, (if b = 0 then _ else _) = _ ∧ _)
  by_cases hb : b = 0
  · rw [if_pos hb]
    refine Or.inr ⟨hb, _, rfl, ?_⟩
    cases rem <;> rfl
  · rw [if_neg hb]
    exact Or.inl ⟨hb, rfl⟩

theorem result_eval {op : AluOp} (hdiv : op.divides = true) (a b : BitVec 64) :
    DivRequest.result ⟨a, b, op == .mod⟩ = op.eval a b := by
  cases op with
  | div | mod => rfl
  | _ => cases hdiv

/-- Both divide alike: `b` is what the core divides by, `r` what the interpreter does. -/
theorem does_divide {op : AluOp} {a b v : BitVec 64} {r : Except Stop (BitVec 64)}
    {keep : BitVec 64 → BitVec 64} (hdiv : op.divides = true)
    (hdisp : m.dispatch i.word = m.arith i.word (some ⟨a, b, op == .mod⟩) none keep none)
    (hv : op.eval a b = v)
    (hr : (b ≠ 0 ∧ r = .ok v) ∨ (b = 0 ∧ ∃ stop : Stop, stop.divides = true ∧ r = .error stop)) :
    Does m i r := by
  rcases hr with ⟨hb, rfl⟩ | ⟨hb, stop, hstop, rfl⟩
  · rcases @arith_divide m i.word a b (op == .mod) keep with ⟨_, hset⟩ | ⟨hzero, _⟩
    · rw [hset, result_eval hdiv, hv, i.dstOf_word] at hdisp
      exact .set hdisp
    · exact absurd hzero hb
  · rcases @arith_divide m i.word a b (op == .mod) keep with ⟨hne, _⟩ | ⟨_, m', hfail, hmem⟩
    · exact absurd hb hne
    · exact .divide hstop ⟨m', hdisp.trans hfail, hmem⟩

theorem does_div64 {op : AluOp} (hdiv : op.divides = true)
    (hop : i.opcode = op.opcode opcAlu64 reg) (himm : reg = false → i.imm.msb = false) :
    ∃ r, aluArm curPc i.opcode (m.regs.read i.dst) (m.regs.read i.src) i.imm = some r
      ∧ Does m i r := by
  have hdisp := @Machine.dispatch_div64 m i.word reg op hdiv (i.opcodeOf_word.trans hop)
  rw [operand_eq himm, i.dstOf_word] at hdisp
  rw [hop, aluArm_div64 hdiv]
  refine ⟨_, rfl, does_divide hdiv hdisp rfl ?_⟩
  cases reg with
  | true =>
      by_cases hs : m.regs.read i.src = 0
      · exact Or.inr ⟨hs, .divisionByZero curPc, rfl, if_pos hs⟩
      · exact Or.inl ⟨hs, if_neg hs⟩
  | false =>
      by_cases hs : wide i.imm = 0
      · exact Or.inr ⟨hs, .undefined .division, rfl, if_pos hs⟩
      · exact Or.inl ⟨hs, if_neg hs⟩

theorem does_div32 {op : AluOp} (hdiv : op.divides = true)
    (hop : i.opcode = op.opcode opcAlu reg) :
    ∃ r, aluArm curPc i.opcode (m.regs.read i.dst) (m.regs.read i.src) i.imm = some r
      ∧ Does m i r := by
  have hdisp := @Machine.dispatch_div32 m i.word reg op hdiv (i.opcodeOf_word.trans hop)
  have hzero : ∀ x : BitVec 32, x.setWidth 64 = 0 ↔ x = 0 := fun x => by
    rw [show (0 : BitVec 64) = (0 : BitVec 32).setWidth 64 from rfl, setWidth_inj (by omega)]
  rw [i.dstOf_word, low32_eq, low32_eq] at hdisp
  rw [hop, aluArm_div32 hdiv]
  refine ⟨_, rfl, does_divide hdiv hdisp (AluOp.div_extend hdiv _ _) ?_⟩
  have hlow : (m.operand i.word reg).setWidth 32 = _ := low32_operand m i reg
  rw [hlow, ne_eq, hzero]
  cases reg with
  | true =>
      by_cases hs : m.regs.read i.src = 0
      · refine Or.inr ⟨?_, .divisionByZero curPc, rfl, if_pos hs⟩
        exact congrArg u32 hs
      · rw [if_pos rfl, nonZero, if_neg hs]
        by_cases hl : u32 (m.regs.read i.src) = 0
        · exact Or.inr ⟨hl, .undefined .division, rfl, if_pos hl⟩
        · exact Or.inl ⟨hl, if_neg hl⟩
  | false =>
      have hself : u32 (operand false (m.regs.read i.src) i.imm) = i.imm := lower_signExtend i.imm
      rw [hself]
      by_cases hs : i.imm = 0
      · exact Or.inr ⟨hs, .undefined .division, rfl, if_pos hs⟩
      · exact Or.inl ⟨hs, if_neg hs⟩

theorem does_alu64 {op : AluOp} (hdiv : op.divides = false)
    (hop : i.opcode = op.opcode opcAlu64 reg) (hneg : op = .neg → i.src = i.dst)
    (himm : reg = false → i.imm.msb = false) :
    ∃ r, aluArm curPc i.opcode (m.regs.read i.dst) (m.regs.read i.src) i.imm = some r
      ∧ Does m i r := by
  rw [hop, aluArm_alu64 hdiv]
  refine ⟨_, rfl, .set ?_⟩
  rw [@Machine.dispatch_alu64 m i.word reg op hdiv (i.opcodeOf_word.trans hop), i.dstOf_word,
    i.srcOf_word, operand_eq himm]
  split_ifs with hn
  · rw [hneg hn]
    subst hn
    rfl
  · rfl

theorem does_shifted {width count : Nat} {v : BitVec 64}
    (h : count < width → m.dispatch i.word = m.set i.dst v) : Does m i (shifted width count v) := by
  unfold shifted
  split_ifs with hlt
  · exact .set (h hlt)
  · exact .shift

theorem does_shift64 {op : ShiftOp} (hop : i.opcode = op.opcode opcAlu64 reg) :
    ∃ r, aluArm curPc i.opcode (m.regs.read i.dst) (m.regs.read i.src) i.imm = some r
      ∧ Does m i r := by
  have hcount : (m.operand i.word reg).toNat = count64 reg (m.regs.read i.src) i.imm := by
    rw [operand_word]
    cases reg with
    | true => rfl
    | false => exact toNat_zeroExtend i.imm
  rw [hop, aluArm_shift64]
  refine ⟨_, rfl, does_shifted fun _ => ?_⟩
  rw [Machine.dispatch_shift64 (i.opcodeOf_word.trans hop), i.dstOf_word, ShiftOp.request_result,
    hcount]

/-- A count that is not too wide fits into the low half, which the core shifts by. -/
theorem does_shift32 {op : ShiftOp} (hop : i.opcode = op.opcode opcAlu reg) :
    ∃ r, aluArm curPc i.opcode (m.regs.read i.dst) (m.regs.read i.src) i.imm = some r
      ∧ Does m i r := by
  rw [hop, aluArm_shift32]
  refine ⟨_, rfl, does_shifted fun hlt => ?_⟩
  have hcount : (if reg then low32 (m.regs.read i.src) else i.imm.setWidth 64).toNat
      = count32 op reg (m.regs.read i.src) i.imm := by
    have hlow : (low32 (m.regs.read i.src)).toNat = (u32 (m.regs.read i.src)).toNat := by
      rw [low32_eq, toNat_zeroExtend, u32]
    cases reg with
    | false => exact toNat_zeroExtend i.imm
    | true =>
        rw [if_pos rfl, hlow]
        by_cases harsh : op = .arsh
        · exact (if_pos harsh).symm
        · have hself : count32 op true (m.regs.read i.src) i.imm = (m.regs.read i.src).toNat :=
            if_neg harsh
          rw [hself] at hlt ⊢
          rw [u32, BitVec.toNat_setWidth]
          refine Nat.mod_eq_of_lt (Nat.lt_trans hlt ?_)
          split_ifs <;> decide
  rw [Machine.dispatch_shift32 (i.opcodeOf_word.trans hop), i.dstOf_word, i.srcOf_word,
    i.immediateOf_word, ShiftOp.low32_request, hcount]
  rfl

/-- The widths that `validate` lets through. -/
theorem endian_width {imm : BitVec 32} (h : imm = 16 ∨ imm = 32 ∨ imm = 64) :
    ∃ n, (n = 2 ∨ n = 4 ∨ n = 8) ∧ imm = BitVec.ofNat 32 (8 * n)
      ∧ ∀ (d : BitVec 64) (f : Nat → BitVec 64), endian imm d f = f n := by
  rcases h with rfl | rfl | rfl
  · exact ⟨2, by decide, rfl, fun _ _ => rfl⟩
  · exact ⟨4, by decide, rfl, fun _ _ => rfl⟩
  · exact ⟨8, by decide, rfl, fun _ _ => rfl⟩

theorem does_endian (hop : i.opcode = ebpfOpLe ∨ i.opcode = ebpfOpBe)
    (himm : i.imm = 16 ∨ i.imm = 32 ∨ i.imm = 64) :
    ∃ r, aluArm curPc i.opcode (m.regs.read i.dst) (m.regs.read i.src) i.imm = some r
      ∧ Does m i r := by
  obtain ⟨n, hn, hwidth, hendian⟩ := endian_width himm
  rcases hop with hop | hop
  · have harm : aluArm curPc i.opcode (m.regs.read i.dst) (m.regs.read i.src) i.imm
        = some (.ok (endian i.imm (m.regs.read i.dst) fun n =>
          ((m.regs.read i.dst).setWidth (8 * n)).setWidth 64)) := by
      rw [hop]
      rfl
    rw [hendian] at harm
    refine ⟨_, harm, .set ?_⟩
    rw [← i.dstOf_word]
    refine Machine.dispatch_le (i.opcodeOf_word.trans hop) ?_
    rw [i.immediateOf_word, hwidth, leArm_low hn]
  · have harm : aluArm curPc i.opcode (m.regs.read i.dst) (m.regs.read i.src) i.imm
        = some (.ok (endian i.imm (m.regs.read i.dst)
          (ByteOrder.swapped (m.regs.read i.dst)))) := by
      rw [hop]
      rfl
    rw [hendian] at harm
    refine ⟨_, harm, .set ?_⟩
    rw [← i.dstOf_word]
    refine Machine.dispatch_be (i.opcodeOf_word.trans hop) ?_
    rw [i.immediateOf_word, hwidth, beArm_swapped hn]

theorem extract_wide (imm : BitVec 32) : (wide imm).extractLsb' 0 32 = imm := by
  rw [lower_extract, wide, lower_signExtend]

/-- Of a store both store the same bytes. -/
theorem dispatch_storeOp {n : Nat} {v : BitVec 64}
    (hst : storeArm i.opcode (m.regs.read i.src) i.imm = some (n, v))
    (himm : i.opcode = ebpfOpStdw → i.imm.msb = false) :
    m.dispatch i.word = { m with
      mem := storeLE m.mem (Machine.dataAddress (m.regs.read i.dst) i.offset) v n }.next := by
  have hstore : ∀ {arm : Option (BitVec 4 × BitVec 64)} {ww : BitVec 4} {u : BitVec 64},
      m.dispatch i.word = m.storeTo i.word arm → arm = some (ww, u) →
      (∀ p, storeLE m.mem p u ww.toNat = storeLE m.mem p v n) →
      m.dispatch i.word = { m with
        mem := storeLE m.mem (Machine.dataAddress (m.regs.read i.dst) i.offset) v n }.next := by
    intro arm ww u hdisp harm hsame
    rw [hdisp, harm, Machine.storeTo, Machine.storeAddress, i.dstOf_word, i.offsetOf_word, hsame]
  have hst' : ∀ op, i.opcode = op → opclassOf op = opcSt →
      m.dispatch i.word = m.storeTo i.word (stArm op i.imm) := by
    intro op hop hcls
    rw [Machine.dispatch_st (by rw [i.opcodeOf_word, hop, hcls]), i.opcodeOf_word, hop,
      i.immediateOf_word]
  have hstx : ∀ op, i.opcode = op → opclassOf op = opcStx →
      m.dispatch i.word = m.storeTo i.word (stxArm op (m.regs.read i.src)) := by
    intro op hop hcls
    rw [Machine.dispatch_stx (by rw [i.opcodeOf_word, hop, hcls]), i.opcodeOf_word, hop,
      i.srcOf_word]
  have hlow : ∀ {k n : Nat} (x : BitVec 64) (p : BitVec 11), 8 * n ≤ k →
      storeLE m.mem p ((x.extractLsb' 0 k).setWidth 64) n = storeLE m.mem p x n := by
    intro k n x p hk
    rw [storeLE_extract m.mem p x hk, BitVec.setWidth_eq]
  have hwide : ∀ {k n : Nat} (p : BitVec 11), 8 * n ≤ k → k ≤ 32 →
      storeLE m.mem p ((i.imm.extractLsb' 0 k).setWidth 64) n
        = storeLE m.mem p (wide i.imm) n := by
    intro k n p hk h32
    rw [storeLE_extract m.mem p i.imm hk, ← hlow (wide i.imm) p (show 8 * n ≤ 32 by omega),
      extract_wide]
  revert hst
  unfold storeArm
  refine of_ite ?_ (of_ite ?_ (of_ite ?_ (of_ite ?_ (of_ite ?_ (of_ite ?_ (of_ite ?_
    (of_ite ?_ fun hv => (Option.some_ne_none _ hv.symm).elim)))))))
  all_goals
    intro hop hv
    obtain ⟨rfl, rfl⟩ := Prod.mk.inj (Option.some.inj hv)
  · exact hstore (hst' _ hop rfl) rfl fun p => hwide p (by decide) (by decide)
  · exact hstore (hst' _ hop rfl) rfl fun p => hwide p (by decide) (by decide)
  · exact hstore (hst' _ hop rfl) rfl fun p => hwide p (by decide) (by decide)
  · refine hstore (hst' _ hop rfl) rfl fun p => ?_
    rw [wide, BitVec.signExtend_eq_setWidth_of_msb_false (himm hop)]
    rfl
  · exact hstore (hstx _ hop rfl) rfl fun p => hlow _ p (by decide)
  · exact hstore (hstx _ hop rfl) rfl fun p => hlow _ p (by decide)
  · exact hstore (hstx _ hop rfl) rfl fun p => hlow _ p (by decide)
  · exact hstore (hstx _ hop rfl) rfl fun p => rfl

/-- Without a sign on either side the interpreter compares as the core does. -/
theorem jumpArm_portable {op : JumpOp} {d s : BitVec 64} {imm : BitVec 32}
    (hsigned : op.signed = false)
    (himm : op = .eq ∨ op = .ne ∨ op = .set → reg = false → imm.msb = false) :
    jumpArm (op.opcode reg) d s imm = some (op.holds d (if reg then s else imm.setWidth 64)) := by
  rw [jumpArm_conditional]
  cases reg with
  | true => rfl
  | false =>
      have hwide : op = .eq ∨ op = .ne ∨ op = .set → wide imm = imm.setWidth 64 := fun hop =>
        BitVec.signExtend_eq_setWidth_of_msb_false (himm hop rfl)
      simp only [Bool.false_eq_true, if_false]
      cases op with
      | eq | ne | set => rw [if_neg (by simp), hwide (by simp)]
      | gt | ge | lt | le => rw [if_pos (by simp)]
      | sgt | sge | slt | sle => cases hsigned

theorem not_store_jump (op : JumpOp) (reg : Bool) :
    op.opcode reg ∉ storeOps ∧ loadWidth (op.opcode reg) = none := by
  cases op <;> cases reg <;> decide

end Arms

/-! ## The data memory -/

/-- The context and the stack have their places in the data memory: the context below the last 128
bytes, and the stack there. -/
structure Fits (e : Frame) : Prop where
  placed : e.Placed
  context : (e.mem.setWidth 11).toNat + e.memLen.toNat + stackSize ≤ 2048
  stack : (e.stack + BitVec.ofNat 64 stackSize).setWidth 11 = 0

/-- The data memory holds the bytes of the context and the stack. -/
def Image (e : Frame) (bytes : Memory) (mem : BitVec 11 → BitVec 8) : Prop :=
  ∀ a, e.Owned a → mem (a.setWidth 11) = bytes a

section Image

variable {e : Frame} {bytes : Memory} {mem : BitVec 11 → BitVec 8} {addr : BitVec 64} {n : Nat}

/-- No two bytes have the same place. -/
theorem Fits.inj (h : Fits e) {a c : BitVec 64} (ha : e.Owned a) (hc : e.Owned c)
    (heq : a.setWidth 11 = c.setWidth 11) : a = c := by
  have hmem := h.placed.mem
  have hstack := h.placed.stack
  have hcontext := h.context
  have htop := congrArg BitVec.toNat h.stack
  have hmod := congrArg BitVec.toNat heq
  rw [BitVec.toNat_setWidth, BitVec.toNat_add, BitVec.toNat_ofNat] at htop
  rw [BitVec.toNat_setWidth, BitVec.toNat_setWidth] at hmod
  rw [BitVec.toNat_setWidth] at hcontext
  have hzero : (0 : BitVec 11).toNat = 0 := rfl
  rw [hzero] at htop
  unfold stackSize at hstack hcontext htop
  apply BitVec.eq_of_toNat_eq
  rcases ha with ⟨_, _, _⟩ | ⟨_, _⟩ <;> rcases hc with ⟨_, _, _⟩ | ⟨_, _⟩ <;>
    unfold stackSize at * <;> omega

theorem setWidth_offset (addr : BitVec 64) (k : Nat) :
    (addr + BitVec.ofNat 64 k).setWidth 11 = addr.setWidth 11 + BitVec.ofNat 11 k := by
  rw [BitVec.setWidth_add _ _ (by omega), BitVec.setWidth_ofNat_of_le (by omega)]

/-- A byte of an access. -/
theorem owned_offset (hp : e.Placed) (h : e.InMem addr n ∨ e.InStack addr n) {k : Nat} (hk : k < n)
    (hn : n ≤ 8) : e.Owned (addr + BitVec.ofNat 64 k) := by
  refine Frame.owned_of_access hp h ?_
  rw [toNat_offset addr (by omega)]
  exact hk

theorem Image.loadLE (h : Image e bytes mem) (hp : e.Placed)
    (hin : e.InMem addr n ∨ e.InStack addr n) (hn : n ≤ 8) :
    ByteMem.loadLE 64 mem (addr.setWidth 11) n = ByteMem.loadLE 64 bytes addr n := by
  refine loadLE_congr fun k hk => ?_
  rw [← setWidth_offset]
  exact h _ (owned_offset hp hin hk hn)

theorem Image.storeLE (h : Image e bytes mem) (hf : Fits e)
    (hin : e.InMem addr n ∨ e.InStack addr n) (hn : n ≤ 8) (v : BitVec 64) :
    Image e (ByteMem.storeLE bytes addr v n) (ByteMem.storeLE mem (addr.setWidth 11) v n) := by
  intro a ha
  by_cases hlow : (a - addr).toNat < n
  · have hself := add_toNat_sub addr a
    rw [← hself, setWidth_offset, storeLE_inside _ _ _ hlow (by omega),
      storeLE_inside _ _ _ hlow (by omega)]
  · rw [storeLE_outside _ _ _ hlow, storeLE_outside, h a ha]
    intro hc
    have hself := add_toNat_sub (addr.setWidth 11) (a.setWidth 11)
    rw [← setWidth_offset] at hself
    have heq := hf.inj (owned_offset hf.placed hin hc hn) ha hself
    rw [← heq, toNat_offset addr (by omega)] at hlow
    exact hlow hc

end Image

/-! ## In step -/

/-- A program for both. If it ends with a jump, the word behind it names registers that exist, for
the jump has that word fetched. -/
structure Ported (e : Frame) (insts : List Insn) (pm : Program) (b : Nat) : Prop where
  fits : Fits e
  portable : ∀ i ∈ insts, Portable i
  sources : ∀ i ∈ insts, i.src.toNat ≤ 9 ∨ ∃ n, loadWidth i.opcode = some n
  holds : HoldsAt pm b (insts.map Insn.word)
  behind : ∀ i ∈ insts.getLast?, i.opcode ∈ jumpOps →
    badRegisters (pm (BitVec.ofNat 9 (b + insts.length))) = false

/-- The core is where the interpreter is, in a program that lies at `b`. The frame pointers are
not the same number but lead to the same place. -/
structure InStep (e : Frame) (insts : List Insn) (b : Nat) (s : State) (m : Machine) : Prop where
  boundary : Boundary insts s.pc.toNat
  ip : m.ip = BitVec.ofNat 10 (b + s.pc.toNat)
  running : m.halt = false
  sound : m.error = false
  upper : m.upper = none
  regs : ∀ r : BitVec 4, r.toNat ≤ 9 → m.regs.read r = s.get r
  frame : m.regs.read 10 = 0
  top : s.get 10 = e.stack + BitVec.ofNat 64 stackSize
  image : Image e s.bytes m.mem

/-- The stops that have their counterpart on the core. -/
def Stop.carried : Stop → Bool
  | .exit _ => true
  | stop => stop.divides

/-- The core has ended as the interpreter has stopped. -/
structure Agrees (e : Frame) (bytes : Memory) (stop : Stop) (m : Machine) : Prop where
  image : Image e bytes m.mem
  result : ∀ v, stop = .exit v → m.error = false ∧ m.regs.read 0 = v
  error : stop.divides = true → m.error = true

/-- What the core does where a turn of the interpreter has the result `r`. -/
def Mirrors (e : Frame) (insts : List Insn) (pm : Program) (b : Nat) (s : State) (m : Machine) :
    Except Stop State → Prop
  | .ok s' => ∃ m', InStep e insts b s' m' ∧ Machine.GetsTo pm m m'
  | .error stop => stop.carried = true →
      Machine.Runs pm (fun m' => m'.halt = true ∧ Agrees e s.bytes stop m') m

namespace InStep

variable {e : Frame} {insts : List Insn} {b : Nat} {s : State} {m : Machine} {pm : Program}
  {i : Insn} {v : BitVec 64}

theorem ip_next (h : InStep e insts b s m) (hpc : (s.pc + 1).toNat = s.pc.toNat + 1) :
    m.ip + 1 = BitVec.ofNat 10 (b + (s.pc + 1).toNat) := by
  rw [h.ip, Machine.ofNat_succ, hpc, Nat.add_assoc]

theorem set (h : InStep e insts b s m) (hb : Boundary insts (s.pc + 1).toNat)
    (hpc : (s.pc + 1).toNat = s.pc.toNat + 1) {d : BitVec 4} (hd : d.toNat ≤ 9) (v : BitVec 64) :
    InStep e insts b (State.set { s with pc := s.pc + 1 } d v) (m.set d v) where
  boundary := hb
  ip := h.ip_next hpc
  running := h.running
  sound := h.sound
  upper := h.upper
  regs := by
    intro r hr
    by_cases hrd : d = r
    · subst hrd
      rw [State.get_set_self]
      exact Regs.read_write_self _ _ _ (Nat.lt_of_le_of_lt hd (by decide))
    · rw [State.get_set_of_ne hrd]
      exact (Regs.read_write_of_ne _ _ hrd).trans (h.regs r hr)
  frame := by
    refine (Regs.read_write_of_ne _ _ ?_).trans h.frame
    rintro rfl
    exact absurd hd (by decide)
  top := by
    refine (State.get_set_of_ne ?_).trans h.top
    rintro rfl
    exact absurd hd (by decide)
  image := h.image

theorem store (h : InStep e insts b s m) (hf : Fits e) (hb : Boundary insts (s.pc + 1).toNat)
    (hpc : (s.pc + 1).toNat = s.pc.toNat + 1) {addr : BitVec 64} {n : Nat} (hn : n ≤ 8)
    (hin : e.InMem addr n ∨ e.InStack addr n) (v : BitVec 64) :
    InStep e insts b { s with pc := s.pc + 1, bytes := storeLE s.bytes addr v n }
      { m with mem := storeLE m.mem (addr.setWidth 11) v n }.next where
  boundary := hb
  ip := h.ip_next hpc
  running := h.running
  sound := h.sound
  upper := h.upper
  regs := h.regs
  frame := h.frame
  top := h.top
  image := h.image.storeLE hf hin hn v

/-- An address is the same on both, modulo 2048. -/
theorem dataAddress (h : InStep e insts b s m) (hf : Fits e) {r : BitVec 4} (hr : r.toNat ≤ 10)
    (off : BitVec 16) :
    Machine.dataAddress (m.regs.read r) off = (s.get r + off.signExtend 64).setWidth 11 := by
  have hbase : (m.regs.read r).setWidth 11 = (s.get r).setWidth 11 := by
    by_cases h10 : r = 10
    · rw [h10, h.frame, h.top, hf.stack]
      rfl
    · refine congrArg _ (h.regs r ?_)
      have hne : r.toNat ≠ 10 := fun hc => h10 (BitVec.eq_of_toNat_eq hc)
      omega
  have hoff : (off.setWidth 64).setWidth 11 = (off.signExtend 64).setWidth 11 := by
    apply BitVec.eq_of_toNat_eq
    have hlt := off.isLt
    rw [BitVec.toNat_setWidth, BitVec.toNat_setWidth, BitVec.toNat_setWidth,
      BitVec.toNat_signExtend, BitVec.toNat_setWidth]
    split_ifs <;> omega
  rw [Machine.dataAddress, BitVec.setWidth_add _ _ (by omega), BitVec.setWidth_add _ _ (by omega),
    hbase, hoff]

/-! ### One turn -/

section Turn

/-- The word of an instruction is accepted. -/
theorem accepted (hregs : RegsOk i) : badRegisters i.word = false := by
  have hsrc := hregs.1
  have hdst := hregs.dst_le
  rw [badRegisters, i.srcOf_word, i.dstOf_word, decide_eq_false (by unfold maxRegs; omega),
    decide_eq_false (by unfold maxRegs; omega)]
  rfl

theorem wordAt_eq (h : InStep e insts b s m) (hp : Ported e insts pm b)
    (hi : insts[s.pc.toNat]? = some i) : m.wordAt pm = i.word := by
  rw [Machine.wordAt, h.ip, BitVec.setWidth_ofNat_of_le (by omega)]
  exact hp.holds s.pc.toNat i.word (by rw [List.getElem?_map, hi]; rfl)

theorem ready (h : InStep e insts b s m) (hp : Ported e insts pm b)
    (hi : insts[s.pc.toNat]? = some i) (hregs : RegsOk i) : Machine.Ready pm m i.word :=
  ⟨h.running, h.upper, h.wordAt_eq hp hi, accepted hregs⟩

/-- No jump strays: what lies behind one is an instruction, or behind the program. -/
theorem not_strays (h : InStep e insts b s m) (hp : Ported e insts pm b)
    (hacc : AcceptedFrom e.vm insts 0) (hi : insts[s.pc.toNat]? = some i)
    (hop : i.opcode ∈ jumpOps) (hlddw : i.opcode ≠ ebpfOpLddw) : ¬ m.Strays pm := by
  intro hs
  have hbad := hs.bad
  obtain ⟨hle, hnext⟩ := hacc.boundary_next hi hlddw
  have hafter : m.wordAfter pm = pm (BitVec.ofNat 9 (b + (s.pc.toNat + 1))) := by
    rw [Machine.wordAfter, h.ip, Machine.ofNat_succ, BitVec.setWidth_ofNat_of_le (by omega),
      Nat.add_assoc]
  rw [hafter] at hbad
  cases hn : insts[s.pc.toNat + 1]? with
  | none =>
      have hend := List.getElem?_eq_none_iff.mp hn
      have hlast : insts.getLast? = some i := by
        rw [List.getLast?_eq_getElem?, show insts.length - 1 = s.pc.toNat by omega, hi]
      rw [show s.pc.toNat + 1 = insts.length by omega, hp.behind i hlast hop] at hbad
      cases hbad
  | some next =>
      rw [hp.holds _ next.word (by rw [List.getElem?_map, hn]; rfl),
        accepted (hacc.regs _ next (Nat.zero_le _) hn (hnext next hn))] at hbad
      cases hbad

/-- Arithmetic. -/
theorem alu_turn (h : InStep e insts b s m) (hr : Machine.Ready pm m i.word)
    (hi : insts[s.pc.toNat]? = some i) (hregs : RegsOk i)
    (hsrc : i.src.toNat ≤ 9 ∨ ∃ n, loadWidth i.opcode = some n)
    (hb : i.opcode ≠ ebpfOpLddw → Boundary insts (s.pc + 1).toNat)
    (hpc : (s.pc + 1).toNat = s.pc.toNat + 1)
    (harm : ∃ r, aluArm s.pc i.opcode (m.regs.read i.dst) (m.regs.read i.src) i.imm = some r
      ∧ Does m i r) : Mirrors e insts pm b s m (e.step insts s) := by
  obtain ⟨r, harm, hdoes⟩ := harm
  obtain ⟨hstore, hlddw⟩ := aluArm_plain harm
  have hcls : opclassOf (opcodeOf i.word) ≠ opcJmp := by
    rw [i.opcodeOf_word]
    exact aluArm_notJump harm
  have hlow : i.src.toNat ≤ 9 := by
    rcases hsrc with hlow | ⟨n, hload⟩
    · exact hlow
    · rw [(ldxArm_loadWidth hload).2] at harm
      cases harm
  have hdst := hregs.2.resolve_right fun hc => hstore hc.1
  rw [h.regs _ hlow, h.regs _ hdst] at harm
  have hexec : e.exec insts s.pc i { s with pc := s.pc + 1 } = r.map _ :=
    @Frame.exec_alu e insts { s with pc := s.pc + 1 } i s.pc r harm
  rw [Frame.step_of_fetch hi, hexec]
  cases hdoes with
  | set hset =>
      exact ⟨_, h.set (hb hlddw) hpc hdst _, .single ⟨hr.not_strays hcls, hr.next.trans hset⟩⟩
  | @divide stop hstop hfail =>
      obtain ⟨m', hfail, hmem⟩ := hfail
      intro _
      refine Leads.step_to (hr.not_strays hcls) (hr.next.trans hfail) (.here ⟨rfl, ?_, ?_, ?_⟩)
      · show Image e s.bytes m'.mem
        rw [hmem]
        exact h.image
      · rintro v rfl
        cases hstop
      · exact fun _ => rfl
  | shift => exact nofun

theorem access_error {type : AccessType} {curPc : BitVec 16} {addr : BitVec 64} {size : Nat}
    {s : State} {stop : Stop} (h : e.access type curPc addr size s = .error stop) :
    stop.carried = false := by
  unfold Frame.access at h
  split_ifs at h with hcheck hin
  · obtain rfl := Except.error.inj h
    rfl
  · obtain rfl := Except.error.inj h
    rfl

/-- A load. -/
theorem load_turn (h : InStep e insts b s m) (hf : Fits e) (hr : Machine.Ready pm m i.word)
    (hi : insts[s.pc.toNat]? = some i) (hregs : RegsOk i)
    (hb : i.opcode ≠ ebpfOpLddw → Boundary insts (s.pc + 1).toNat)
    (hpc : (s.pc + 1).toNat = s.pc.toNat + 1) {n : Nat} (hop : loadWidth i.opcode = some n) :
    Mirrors e insts pm b s m (e.step insts s) := by
  obtain ⟨hn, hstore, hlddw, -⟩ := ldxArm_cases (@ldxArm_loadWidth s.pc 0 0 0 _ _ hop).1
  have hdst := hregs.2.resolve_right fun hc => hstore hc.1
  have hcls : opclassOf (opcodeOf i.word) ≠ opcJmp := by
    rw [i.opcodeOf_word, Machine.opclass_of_loadWidth hop]
    decide
  rw [Frame.step_of_fetch hi, Frame.exec_load hop]
  cases haccess : e.access .load s.pc _ n _ with
  | error stop =>
      intro hc
      rw [access_error haccess] at hc
      cases hc
  | ok s' =>
      obtain ⟨rfl, hin⟩ := Frame.access_ok haccess
      refine ⟨_, h.set (hb hlddw) hpc hdst _, .single ⟨hr.not_strays hcls, hr.next.trans ?_⟩⟩
      rw [Machine.dispatch_load (by rw [i.opcodeOf_word, hop]), Machine.loadAddress, i.srcOf_word,
        i.offsetOf_word, i.dstOf_word, h.dataAddress hf hregs.1]
      exact congrArg (m.set i.dst) (h.image.loadLE hf.placed hin hn)

theorem storeArm_storeOps {op : BitVec 8} (v : BitVec 64) (imm : BitVec 32) (h : op ∈ storeOps) :
    ∃ r, storeArm op v imm = some r := by
  revert op
  simp only [storeOps, List.forall_mem_cons]
  exact ⟨⟨_, rfl⟩, ⟨_, rfl⟩, ⟨_, rfl⟩, ⟨_, rfl⟩, ⟨_, rfl⟩, ⟨_, rfl⟩, ⟨_, rfl⟩, ⟨_, rfl⟩,
    List.forall_mem_nil _⟩

/-- A store. -/
theorem store_turn (h : InStep e insts b s m) (hf : Fits e) (hr : Machine.Ready pm m i.word)
    (hi : insts[s.pc.toNat]? = some i) (hregs : RegsOk i)
    (hsrc : i.src.toNat ≤ 9 ∨ ∃ n, loadWidth i.opcode = some n)
    (hb : i.opcode ≠ ebpfOpLddw → Boundary insts (s.pc + 1).toNat)
    (hpc : (s.pc + 1).toNat = s.pc.toNat + 1) (hop : i.opcode ∈ storeOps)
    (himm : i.opcode = ebpfOpStdw → i.imm.msb = false) :
    Mirrors e insts pm b s m (e.step insts s) := by
  obtain ⟨⟨n, v⟩, hst⟩ := storeArm_storeOps (s.get i.src) i.imm hop
  obtain ⟨hn, -, hlddw, -⟩ := storeArm_cases hst
  have hother : ∀ op ∈ storeOps, opclassOf op ≠ opcJmp ∧ loadWidth op = none :=
    List.all_iff_forall_prop.mp (by decide)
  obtain ⟨hcls, hload⟩ := hother _ hop
  rw [← i.opcodeOf_word] at hcls
  have hlow : i.src.toNat ≤ 9 := by
    rcases hsrc with hlow | ⟨n, hn⟩
    · exact hlow
    · rw [hload] at hn
      cases hn
  have hdst : i.dst.toNat ≤ 10 := hregs.dst_le
  have hdisp := @dispatch_storeOp m i n v (by rw [h.regs _ hlow]; exact hst) himm
  rw [h.dataAddress hf hdst] at hdisp
  have hexec := @Frame.exec_store e insts { s with pc := s.pc + 1 } i s.pc n v hst
  rw [Frame.step_of_fetch hi, hexec]
  cases haccess : e.access .store s.pc _ n _ with
  | error stop =>
      intro hc
      rw [access_error haccess] at hc
      cases hc
  | ok s' =>
      obtain ⟨rfl, hin⟩ := Frame.access_ok haccess
      exact ⟨_, h.store hf (hb hlddw) hpc hn hin v,
        .single ⟨hr.not_strays hcls, hr.next.trans hdisp⟩⟩

/-- A jump, taken or not. -/
theorem jump_turn (h : InStep e insts b s m) (hp : Ported e insts pm b)
    (hacc : AcceptedFrom e.vm insts 0) (hmax : insts.length < maxInsts)
    (hr : Machine.Ready pm m i.word) (hi : insts[s.pc.toNat]? = some i)
    (hpc : (s.pc + 1).toNat = s.pc.toNat + 1) {c : Bool}
    (harm : jumpArm i.opcode (s.get i.dst) (s.get i.src) i.imm = some c)
    (hcore : VeBpf.jmpArm i.opcode (m.regs.read i.dst) (m.regs.read i.src) i.imm = some c) :
    Mirrors e insts pm b s m (e.step insts s) := by
  obtain ⟨hop, hlddw⟩ := jumpArm_cases harm
  have hother : ∀ op ∈ jumpOps, opclassOf op = opcJmp ∧ op ≠ ebpfOpCall ∧ op ≠ ebpfOpExit :=
    List.all_iff_forall_prop.mp (by decide)
  obtain ⟨hcls, hcall, hexit⟩ := hother _ hop
  have hnext : m.isaNext pm = if c then { m with ip := m.target i.word } else m.next := by
    rw [hr.next, Machine.dispatch_jmp (by rw [i.opcodeOf_word, hcls]), Machine.jump,
      i.opcodeOf_word, if_neg hcall, if_neg hexit, i.dstOf_word, i.srcOf_word,
      i.immediateOf_word, hcore]
    cases c <;> rfl
  have hok := h.not_strays hp hacc hi hop hlddw
  have hexec : e.exec insts s.pc i { s with pc := s.pc + 1 } = .ok _ :=
    @Frame.exec_jump e insts { s with pc := s.pc + 1 } i s.pc c harm
  rw [Frame.step_of_fetch hi, hexec]
  cases c with
  | false =>
      refine ⟨m.next, ?_, .single ⟨hok, hnext⟩⟩
      refine ⟨?_, h.ip_next hpc, h.running, h.sound, h.upper, h.regs, h.frame, h.top, h.image⟩
      rw [if_neg (by simp), hpc]
      exact hacc.boundary_next hi hlddw
  | true =>
      refine ⟨_, ?_, .single ⟨hok, hnext⟩⟩
      refine ⟨?_, ?_, h.running, h.sound, h.upper, h.regs, h.frame, h.top, h.image⟩
      · rw [if_pos rfl]
        exact hacc.boundary_jump hmax hi h.boundary hop hpc
      · rw [if_pos rfl]
        show m.target i.word = _
        rw [Machine.target, h.ip_next hpc, i.offsetOf_word]
        apply BitVec.eq_of_toNat_eq
        rw [BitVec.toNat_setWidth, BitVec.toNat_add, BitVec.toNat_setWidth, BitVec.toNat_ofNat,
          BitVec.toNat_ofNat]
        show _ = (b + (s.pc + 1 + i.offset).toNat) % 2 ^ 10
        rw [BitVec.toNat_add (s.pc + 1)]
        omega

/-- An `LDDW` is two words on the core. -/
theorem lddw_turn (h : InStep e insts b s m) (hp : Ported e insts pm b)
    (hacc : AcceptedFrom e.vm insts 0) (hmax : insts.length < maxInsts)
    (hr : Machine.Ready pm m i.word) (hi : insts[s.pc.toNat]? = some i)
    (hpc : (s.pc + 1).toNat = s.pc.toNat + 1) (hop : i.opcode = ebpfOpLddw)
    (hdst : i.dst.toNat ≤ 9) : Mirrors e insts pm b s m (e.step insts s) := by
  obtain ⟨⟨second, hsecond⟩, hb⟩ := hacc.boundary_lddw hi hop
  have hzero : second.opcode = 0 := (hacc.behind _ i second (Nat.zero_le _) hi hsecond).mpr hop
  rw [← hpc] at hsecond
  have hpc₂ : (s.pc + 1 + 1).toNat = s.pc.toNat + 2 := by
    rw [Frame.toNat_succ (List.getElem?_eq_some_iff.mp hsecond).1 hmax, hpc]
  let m₁ : Machine := { m with upper := some i.dst }.set i.dst (i.imm.setWidth 64)
  have hlow : m₁.regs.read i.dst = i.imm.setWidth 64 :=
    Regs.read_write_self _ _ _ (Nat.lt_of_le_of_lt hdst (by decide))
  have hfirst : m.isaNext pm = m₁ := by
    rw [hr.next, Machine.dispatch_ld (by rw [i.opcodeOf_word, hop]; decide), i.opcodeOf_word,
      if_pos hop, i.dstOf_word, i.immediateOf_word]
  have hat : m₁.wordAt pm = second.word := by
    rw [Machine.wordAt, show m₁.ip = m.ip + 1 from rfl, h.ip_next hpc,
      BitVec.setWidth_ofNat_of_le (by omega)]
    exact hp.holds _ second.word (by rw [List.getElem?_map, hsecond]; rfl)
  have hsource : second.src.toNat ≤ 9 := by
    rcases hp.sources second (List.mem_of_getElem? hsecond) with hlow | ⟨n, hn⟩
    · exact hlow
    · rw [hzero] at hn
      cases hn
  have hok : m₁.rejects second.word = false := by
    show (decide (maxRegs ≤ (srcOf second.word).toNat)
      || (ebpfOpLddw &&& opcodeOf second.word != 0)) = false
    rw [second.srcOf_word, second.opcodeOf_word, hzero,
      decide_eq_false (by unfold maxRegs; omega)]
    rfl
  have hnext : m₁.isaNext pm = { m₁ with upper := none }.set i.dst (second.imm ++ i.imm) := by
    rw [Machine.isaNext, hat, @Machine.exec_of_upper m₁ second.word i.dst h.running hok rfl,
      Machine.joinUpper, second.immediateOf_word, hlow, lower_extract, lower_zeroExtend]
  have hcls : opclassOf (opcodeOf i.word) ≠ opcJmp := by
    rw [i.opcodeOf_word, hop]
    decide
  rw [Frame.step_of_fetch hi, Frame.exec_lddw hop hsecond]
  refine ⟨_, ?_, .head ⟨hr.not_strays hcls, hfirst⟩
    (.single ⟨fun hs => (Option.some_ne_none _ hs.upper).elim, hnext⟩)⟩
  have hother : ∀ {r : BitVec 4} {x y : BitVec 64}, i.dst ≠ r →
      ((m.regs.write i.dst x).write i.dst y).read r = m.regs.read r := fun hne =>
    (Regs.read_write_of_ne _ _ hne).trans (Regs.read_write_of_ne _ _ hne)
  have hne : i.dst ≠ 10 := by
    rintro heq
    rw [heq] at hdst
    exact absurd hdst (by decide)
  refine ⟨?_, ?_, h.running, h.sound, rfl, ?_, (hother hne).trans h.frame,
    (State.get_set_of_ne hne).trans h.top, h.image⟩
  · show Boundary insts (s.pc + 1 + 1).toNat
    rw [hpc₂]
    exact hb
  · show m.ip + 1 + 1 = BitVec.ofNat 10 (b + (s.pc + 1 + 1).toNat)
    rw [h.ip_next hpc, Machine.ofNat_succ, hpc₂, hpc, Nat.add_assoc]
  · intro r hr
    by_cases hrd : i.dst = r
    · subst hrd
      exact (Regs.read_write_self _ _ _ (Nat.lt_of_le_of_lt hdst (by decide))).trans
        State.get_set_self.symm
    · exact (hother hrd).trans ((h.regs r hr).trans (State.get_set_of_ne hrd).symm)

/-- The end. -/
theorem exit_turn (h : InStep e insts b s m) (hr : Machine.Ready pm m i.word)
    (hi : insts[s.pc.toNat]? = some i) (hop : i.opcode = ebpfOpExit) :
    Mirrors e insts pm b s m (e.step insts s) := by
  have hexec : e.exec insts s.pc i { s with pc := s.pc + 1 } = .error (.exit (s.get 0)) := by
    rw [Frame.exec, hop]
    rfl
  rw [Frame.step_of_fetch hi, hexec]
  intro _
  refine hr.exit (i.opcodeOf_word.trans hop) ⟨rfl, h.image, ?_,
    fun hd => absurd hd Bool.false_ne_true⟩
  intro v hv
  obtain rfl := Stop.exit.inj hv
  exact ⟨h.sound, h.regs 0 (by decide)⟩

/-- **One turn on the core.** -/
theorem turn (h : InStep e insts b s m) (hp : Ported e insts pm b)
    (hacc : AcceptedFrom e.vm insts 0) (hmax : insts.length < maxInsts) :
    Mirrors e insts pm b s m (e.step insts s) := by
  cases hi : insts[s.pc.toNat]? with
  | none =>
      rw [Frame.step, hi]
      exact fun hc => absurd hc Bool.false_ne_true
  | some i =>
      have hmem := List.mem_of_getElem? hi
      have hzero := h.boundary.2 i hi
      have hregs := hacc.regs _ i (Nat.zero_le _) hi hzero
      have hr := h.ready hp hi hregs
      have hpc := Frame.toNat_succ (List.getElem?_eq_some_iff.mp hi).1 hmax
      have hsrc := hp.sources i hmem
      have hb : i.opcode ≠ ebpfOpLddw → Boundary insts (s.pc + 1).toNat := fun hlddw => by
        rw [hpc]
        exact hacc.boundary_next hi hlddw
      cases hp.portable i hmem with
      | alu32 op reg hop hmov =>
          refine h.alu_turn hr hi hregs hsrc hb hpc ?_
          cases hdiv : op.divides with
          | false => exact does_alu32 hdiv hop hmov
          | true => exact does_div32 hdiv hop
      | alu64 op reg hop hneg himm =>
          refine h.alu_turn hr hi hregs hsrc hb hpc ?_
          cases hdiv : op.divides with
          | false => exact does_alu64 hdiv hop hneg himm
          | true => exact does_div64 hdiv hop himm
      | shift32 op reg hop => exact h.alu_turn hr hi hregs hsrc hb hpc (does_shift32 hop)
      | shift64 op reg hop => exact h.alu_turn hr hi hregs hsrc hb hpc (does_shift64 hop)
      | endian hop =>
          have hplain : i.opcode ≠ ebpfOpLddw := by
            rcases hop with hop | hop <;> rw [hop] <;> decide
          exact h.alu_turn hr hi hregs hsrc hb hpc (does_endian hop
            (checkInst_endian hop (hacc.checked _ i (Nat.zero_le _) hi hzero hplain)))
      | load n hop => exact h.load_turn hp.fits hr hi hregs hb hpc hop
      | store hop himm => exact h.store_turn hp.fits hr hi hregs hsrc hb hpc hop himm
      | jump op reg hop hsigned himm =>
          have hdst : i.dst.toNat ≤ 9 := hregs.2.resolve_right fun hc => by
            rw [hop] at hc
            exact (not_store_jump op reg).1 hc.1
          have hlow : i.src.toNat ≤ 9 := hsrc.resolve_right fun hstore => by
            obtain ⟨n, hn⟩ := hstore
            rw [hop, (not_store_jump op reg).2] at hn
            cases hn
          have harm := @jumpArm_portable reg op (s.get i.dst) (s.get i.src) i.imm hsigned himm
          rw [← hop] at harm
          refine h.jump_turn hp hacc hmax hr hi hpc harm ?_
          rw [hop, Machine.jmpArm_conditional, if_neg (by rw [hsigned]; simp), h.regs _ hdst,
            h.regs _ hlow]
      | ja hop =>
          refine h.jump_turn hp hacc hmax hr hi hpc (c := true) ?_ ?_ <;> rw [hop] <;> rfl
      | lddw hop =>
          have hdst : i.dst.toNat ≤ 9 := hregs.2.resolve_right fun hc => by
            rw [hop] at hc
            exact absurd hc.1 (by decide)
          exact h.lddw_turn hp hacc hmax hr hi hpc hop hdst
      | second hop => exact absurd hop hzero
      | exit hop => exact h.exit_turn hr hi hop

/-- **A run on the core.** -/
theorem runs {fuel : Nat} {stop : Stop} {s' : State} (h : InStep e insts b s m)
    (hp : Ported e insts pm b) (hacc : AcceptedFrom e.vm insts 0) (hmax : insts.length < maxInsts)
    (hloop : e.loop insts fuel s = some (stop, s')) (hstop : stop.carried = true) :
    Machine.Runs pm (fun m' => m'.halt = true ∧ Agrees e s'.bytes stop m') m := by
  induction fuel generalizing s m with
  | zero => cases hloop
  | succ fuel ih =>
      have hturn := h.turn hp hacc hmax
      rw [Frame.loop] at hloop
      cases hstep : e.step insts s with
      | error x =>
          rw [hstep] at hloop hturn
          obtain ⟨rfl, rfl⟩ := Prod.mk.inj (Option.some.inj hloop)
          exact hturn hstop
      | ok t =>
          rw [hstep] at hloop hturn
          obtain ⟨m', hm', hgets⟩ := hturn
          exact hgets.leads (ih hm' hloop)

end Turn

end InStep

end Ubpf

/-! ## The core -/

namespace Sys

open Ubpf

variable {insts : List Insn} {e : Frame} {vm : UbpfVm} {reg : Vector (BitVec 64) 16}
  {bytes : Memory} {fuel b n : Nat} {stop : Stop} {s' : State} {s₀ : Sys} {rst inp : Nat → Inputs}

end Sys

end VeBpf
