import VeBpf.Proof.Conversion
import VeBpf.Proof.Encoders
import VeBpf.Proof.Firewall
import VeBpf.Proof.NetworkOrder

/-!
# Converted filters on the core

A converted filter runs on the core as it is: the registers hold its words
zero-extended, the packet lies where `r1` points to, and the scratch words, which
are below `r10`, are the last 64 bytes of the data memory. `MOV` between registers
copies all 64 bits on the core, which makes no difference here, and no jump strays.
-/

namespace VeBpf

open ByteMem ByteOrder Halves HexText Expansion

/-! ## Words of 32 bits in registers of 64 -/

theorem AluOp.low32_eval {op : AluOp} (hdiv : op.divides = false) (a b : BitVec 32) :
    low32 (op.eval (a.setWidth 64) (b.setWidth 64)) = (op.eval a b).setWidth 64 := by
  rw [low32_eq, AluOp.setWidth_eval hdiv (by omega), lower_zeroExtend, lower_zeroExtend]

theorem low32_zeroExtend (a : BitVec 32) : low32 (a.setWidth 64) = a.setWidth 64 := by
  rw [low32_eq, lower_zeroExtend]

theorem AluOp.div_extend {op : AluOp} (hdiv : op.divides = true) (a b : BitVec 32) :
    op.eval (a.setWidth 64) (b.setWidth 64) = (op.eval a b).setWidth 64 := by
  cases op with
  | div =>
      apply BitVec.eq_of_toNat_eq
      show ((a.setWidth 64) / (b.setWidth 64)).toNat = ((a / b).setWidth 64).toNat
      rw [BitVec.toNat_udiv, toNat_zeroExtend, toNat_zeroExtend, toNat_zeroExtend,
        BitVec.toNat_udiv]
  | mod =>
      apply BitVec.eq_of_toNat_eq
      show ((a.setWidth 64) % (b.setWidth 64)).toNat = ((a % b).setWidth 64).toNat
      rw [BitVec.toNat_umod, toNat_zeroExtend, toNat_zeroExtend, toNat_zeroExtend,
        BitVec.toNat_umod]
  | _ => cases hdiv

theorem JumpOp.holds_extend {op : JumpOp} (hs : op.signed = false) (a b : BitVec 32) :
    op.holds (a.setWidth 64) (b.setWidth 64) = op.holds a b := by
  have hinj : a.setWidth 64 = b.setWidth 64 ↔ a = b := setWidth_inj (by omega)
  have hzero : a.setWidth 64 &&& b.setWidth 64 = 0 ↔ a &&& b = 0 := by
    rw [← BitVec.setWidth_and, show (0 : BitVec 64) = (0 : BitVec 32).setWidth 64 from rfl,
      setWidth_inj (by omega)]
  have hult : ∀ a b : BitVec 32, (a.setWidth 64).ult (b.setWidth 64) = a.ult b := fun a b => by
    rw [BitVec.ult, BitVec.ult, toNat_zeroExtend, toNat_zeroExtend]
  have hule : ∀ a b : BitVec 32, (a.setWidth 64).ule (b.setWidth 64) = a.ule b := fun a b => by
    rw [BitVec.ule, BitVec.ule, toNat_zeroExtend, toNat_zeroExtend]
  cases op with
  | eq => exact decide_eq_decide.mpr hinj
  | ne => exact congrArg not (decide_eq_decide.mpr hinj)
  | set => exact congrArg not (decide_eq_decide.mpr hzero)
  | gt => exact hult b a
  | ge => exact hule b a
  | lt => exact hult a b
  | le => exact hule a b
  | sgt => cases hs
  | sge => cases hs
  | slt => cases hs
  | sle => cases hs

theorem JumpOp.conditional (op : JumpOp) (reg : Bool) :
    opclassOf (op.opcode reg) = opcJmp ∧ op.opcode reg ≠ ebpfOpCall
      ∧ op.opcode reg ≠ ebpfOpExit := by
  cases op <;> cases reg <;> decide

/-! ## The words of a converted program -/

namespace Insn

variable (i : Insn)

/-- A core with the word in its instruction register. -/
def fetched : Cpu :=
  { (Sys.zero (fun _ => 0) fun _ => 0).cpu with instruction := i.word, keepOp := 0 }

theorem opcodeOf_word : opcodeOf i.word = i.opcode := i.carries.opcode i.fetched rfl rfl

theorem dstOf_word : dstOf i.word = i.dst := i.carries.dst i.fetched rfl rfl

theorem srcOf_word : srcOf i.word = i.src := i.carries.src i.fetched rfl

theorem offsetOf_word : offsetOf i.word = i.offset := i.carries.offset i.fetched rfl

theorem immediateOf_word : immediateOf i.word = i.imm := i.carries.immediate i.fetched rfl

end Insn

/-! ## Instructions on zero-extended words -/

theorem Regs.read_write_of_ne (r : Regs) {i j : BitVec 4} (v : BitVec 64) (h : i ≠ j) :
    (r.write i v).read j = r.read j := by
  have hne : i.toNat ≠ j.toNat := fun heq => h (BitVec.eq_of_toNat_eq heq)
  rw [Regs.read, Regs.write, Vector.getElem?_setIfInBounds_ne hne, Regs.read]

namespace Machine

variable {m : Machine} {w : BitVec 64} {reg : Bool} {a b : BitVec 32}

theorem operand_word_reg (m : Machine) (i : Insn) :
    m.operand i.word true = m.regs.read i.src := by
  rw [operand, if_pos rfl, i.srcOf_word]

/-- 32-bit arithmetic on zero-extended words. -/
theorem dispatch_eval (op : AluOp) (hop : opcodeOf w = op.opcode opcAlu reg)
    (ha : m.regs.read (dstOf w) = a.setWidth 64) (hb : m.operand w reg = b.setWidth 64)
    (hdiv : op.divides = true → b ≠ 0) :
    m.dispatch w = m.set (dstOf w) ((op.eval a b).setWidth 64) := by
  cases hd : op.divides with
  | false =>
      rw [dispatch_alu32 hd hop, ha, hb]
      by_cases hmov : op = .mov
      · subst hmov
        rfl
      · rw [if_neg hmov, AluOp.low32_eval hd]
  | true =>
      have hne : b.setWidth 64 ≠ 0 := by
        rw [show (0 : BitVec 64) = (0 : BitVec 32).setWidth 64 from rfl, Ne,
          setWidth_inj (by omega)]
        exact hdiv hd
      rw [dispatch_div32 hd hop, ha, hb, low32_zeroExtend, low32_zeroExtend,
        ← AluOp.div_extend hd]
      show (if b.setWidth 64 = 0 then _ else m.set _ (DivRequest.result _)) = _
      rw [if_neg hne]
      cases op with
      | div => rfl
      | mod => rfl
      | _ => cases hd

/-- A 32-bit shift of a zero-extended word. -/
theorem dispatch_shiftEval (op : ShiftOp) (hop : opcodeOf w = op.opcode opcAlu reg)
    (ha : m.regs.read (dstOf w) = a.setWidth 64)
    (hb : m.operand w reg = b.setWidth 64) :
    m.dispatch w = m.set (dstOf w) ((op.eval a b.toNat).setWidth 64) := by
  have hcount : (if reg then low32 (m.regs.read (srcOf w)) else (immediateOf w).setWidth 64)
      = b.setWidth 64 := by
    cases reg with
    | true =>
        have hb : m.regs.read (srcOf w) = b.setWidth 64 := hb
        rw [if_pos rfl, hb, low32_zeroExtend]
    | false => exact hb
  rw [dispatch_shift32 hop, hcount, ha, ShiftOp.low32_request, lower_zeroExtend,
    toNat_zeroExtend]

end Machine

/-! ## A filter on the core -/

/-- The machine is where the filter is, in a program that lies at `b` with the packet at `p`. -/
structure OnCore (b : Nat) (p : BitVec 64) (data : List (BitVec 8)) (f : Filter) (m : Machine) :
    Prop where
  ip : m.ip = BitVec.ofNat 10 (b + f.pc)
  running : m.halt = false
  sound : m.error = false
  upper : m.upper = none
  base : m.regs.read C2e.r1 = p
  frame : m.regs.read C2e.r10 = 0
  acc : ∀ r : Filter.Acc, m.regs.read r.reg = (f.get r).setWidth 64
  tmp : ∀ t, f.tmp = some t → m.regs.read C2e.regTmp = p + t
  packet : HoldsBytes m.mem (p.setWidth 11) data
  scratch : Filter.HoldsScratch m.mem (fun k => (Filter.scratch k).setWidth 11) f.mem

namespace OnCore

variable {b : Nat} {p : BitVec 64} {data : List (BitVec 8)} {f : Filter} {m : Machine}

/-- Set a register. -/
theorem set (h : OnCore b p data f m) (r : Filter.Acc) (v : BitVec 32) :
    OnCore b p data (f.set r v) (m.set r.reg (v.setWidth 64)) where
  ip := by rw [Machine.set_ip, h.ip, Machine.ofNat_succ, Filter.set_pc, Nat.add_assoc]
  running := h.running
  sound := h.sound
  upper := h.upper
  base := by
    rw [Machine.set_regs, Regs.read_write_of_ne _ _ (by cases r <;> decide), h.base]
  frame := by
    rw [Machine.set_regs, Regs.read_write_of_ne _ _ (by cases r <;> decide), h.frame]
  acc := by
    intro q
    rw [Machine.set_regs]
    cases r <;> cases q
    · exact Regs.read_write_self _ _ _ (by decide)
    · rw [Regs.read_write_of_ne _ _ (by decide)]
      exact h.acc .x
    · rw [Regs.read_write_of_ne _ _ (by decide)]
      exact h.acc .a
    · exact Regs.read_write_self _ _ _ (by decide)
  tmp := by
    intro t ht
    rw [Filter.set_tmp] at ht
    rw [Machine.set_regs, Regs.read_write_of_ne _ _ (by cases r <;> decide), h.tmp t ht]
  packet := h.packet
  scratch := by
    intro k v hk
    rw [Filter.set_mem] at hk
    exact h.scratch k v hk

/-! ### One instruction -/

section Step

variable {pm : Program} {code : List Insn} {i : Insn} {f' : Filter} {Q : Machine → Prop}

theorem ready (h : OnCore b p data f m) (hp : HoldsAt pm b (code.map Insn.word))
    (hreg : ∀ e ∈ code, badRegisters e.word = false) (hi : code[f.pc]? = some i) :
    Machine.Ready pm m i.word := by
  refine ⟨h.running, h.upper, ?_, hreg i (List.mem_of_getElem? hi)⟩
  rw [Machine.wordAt, h.ip, BitVec.setWidth_ofNat_of_le (by omega)]
  exact hp f.pc i.word (by rw [List.getElem?_map, hi]; rfl)

/-- An instruction that sets one of the two registers. -/
theorem sets (h : OnCore b p data f m) (hr : Machine.Ready pm m i.word) (r : Filter.Acc)
    {v : BitVec 32} (hcls : opclassOf i.opcode ≠ opcJmp) (hdst : i.dst = r.reg)
    (hd : m.dispatch i.word = m.set (dstOf i.word) (v.setWidth 64)) :
    ∃ m', OnCore b p data (f.set r v) m' ∧ (Machine.Runs pm Q m' → Machine.Runs pm Q m) := by
  refine ⟨_, h.set r v, hr.set (by rw [i.opcodeOf_word]; exact hcls) ?_⟩
  rw [hd, i.dstOf_word, hdst]

theorem alu_step (h : OnCore b p data f m) (hr : Machine.Ready pm m i.word) (r : Filter.Acc)
    (op : AluOp) (reg : Bool) {v : BitVec 32} (hop : i.opcode = op.opcode opcAlu reg)
    (hdst : i.dst = r.reg) (hb : m.operand i.word reg = v.setWidth 64)
    (hdiv : op.divides = true → v ≠ 0) :
    ∃ m', OnCore b p data (f.set r (op.eval (f.get r) v)) m'
      ∧ (Machine.Runs pm Q m' → Machine.Runs pm Q m) := by
  have ha : m.regs.read (dstOf i.word) = (f.get r).setWidth 64 := by
    rw [i.dstOf_word, hdst, h.acc]
  refine h.sets hr r ?_ hdst (Machine.dispatch_eval op (by rw [i.opcodeOf_word, hop]) ha hb hdiv)
  rw [hop, op.opclass_opcode (Or.inl rfl)]
  decide

theorem shift_step (h : OnCore b p data f m) (hr : Machine.Ready pm m i.word) (r : Filter.Acc)
    (op : ShiftOp) (reg : Bool) {v : BitVec 32} (hop : i.opcode = op.opcode opcAlu reg)
    (hdst : i.dst = r.reg) (hb : m.operand i.word reg = v.setWidth 64) :
    ∃ m', OnCore b p data (f.set r (op.eval (f.get r) v.toNat)) m'
      ∧ (Machine.Runs pm Q m' → Machine.Runs pm Q m) := by
  have ha : m.regs.read (dstOf i.word) = (f.get r).setWidth 64 := by
    rw [i.dstOf_word, hdst, h.acc]
  refine h.sets hr r ?_ hdst (Machine.dispatch_shiftEval op (by rw [i.opcodeOf_word, hop]) ha hb)
  rw [hop, op.opclass_opcode (Or.inl rfl)]
  decide

/-- A load of `n` bytes from the address that `regs[src] + offset` is. -/
theorem load_step (h : OnCore b p data f m) (hr : Machine.Ready pm m i.word) (r : Filter.Acc)
    {n : Nat} {v : BitVec 32} (hop : loadWidth i.opcode = some n) (hdst : i.dst = r.reg)
    (hv : loadLE 64 m.mem (Machine.dataAddress (m.regs.read i.src) i.offset) n = v.setWidth 64) :
    ∃ m', OnCore b p data (f.set r v) m' ∧ (Machine.Runs pm Q m' → Machine.Runs pm Q m) := by
  refine h.sets hr r ?_ hdst ?_
  · rw [Machine.opclass_of_loadWidth hop]
    decide
  · rw [Machine.dispatch_load (n := n) (by rw [i.opcodeOf_word, hop]), Machine.loadAddress,
      i.srcOf_word, i.offsetOf_word, hv]

theorem be_step (h : OnCore b p data f m) {n : Nat} (hn : n = 2 ∨ n = 4)
    (hr : Machine.Ready pm m (Insn.word ⟨ebpfOpBe, C2e.regA, 0, 0, BitVec.ofNat 32 (8 * n)⟩)) :
    ∃ m', OnCore b p data (f.set .a (Filter.swap n f.a)) m'
      ∧ (Machine.Runs pm Q m' → Machine.Runs pm Q m) := by
  have hswap := Filter.swapped_zeroExtend (show n ≤ 4 by omega) f.a
  have hcls : opclassOf ebpfOpBe ≠ opcJmp := by decide
  refine h.sets hr .a hcls rfl ?_
  have hop := Insn.opcodeOf_word ⟨ebpfOpBe, C2e.regA, 0, 0, BitVec.ofNat 32 (8 * n)⟩
  have ha := h.acc .a
  refine Machine.dispatch_be hop ?_
  rw [Insn.dstOf_word, Insn.immediateOf_word, ← hswap]
  exact ha ▸ beArm_swapped (by omega)

/-- An instruction that sets the temporary register. -/
theorem tmp_step (h : OnCore b p data f m) (hr : Machine.Ready pm m i.word) (t : BitVec 64)
    (hcls : opclassOf i.opcode ≠ opcJmp) (hdst : i.dst = C2e.regTmp)
    (hd : m.dispatch i.word = m.set (dstOf i.word) (p + t)) :
    ∃ m', OnCore b p data { f with tmp := some t, pc := f.pc + 1 } m'
      ∧ (Machine.Runs pm Q m' → Machine.Runs pm Q m) := by
  rw [i.dstOf_word, hdst] at hd
  refine ⟨m.set C2e.regTmp (p + t), ?_, hr.set (by rw [i.opcodeOf_word]; exact hcls) hd⟩
  have hother : ∀ j, C2e.regTmp ≠ j → (m.set C2e.regTmp (p + t)).regs.read j = m.regs.read j :=
    fun j hj => Regs.read_write_of_ne _ _ hj
  refine ⟨?_, h.running, h.sound, h.upper, ?_, ?_, ?_, ?_, h.packet, h.scratch⟩
  · rw [Machine.set_ip, h.ip, Machine.ofNat_succ, Nat.add_assoc]
  · rw [hother _ (by decide), h.base]
  · rw [hother _ (by decide), h.frame]
  · intro r
    rw [hother _ (by cases r <;> decide), h.acc]
    cases r <;> rfl
  · intro t' ht'
    obtain rfl := Option.some.inj ht'
    exact Regs.read_write_self _ _ _ (by decide)

/-- Where scratch word `k` lies. -/
theorem toNat_scratch {k : Nat} (hk : k < 16) :
    ((Filter.scratch k).setWidth 11).toNat = 2044 - 4 * k := by
  rw [Filter.scratch, BitVec.toNat_setWidth, BitVec.toNat_neg, BitVec.toNat_mul,
    BitVec.toNat_ofNat, show (4 : BitVec 16).toNat = 4 from rfl]
  omega

theorem dataAddress_frame (h : OnCore b p data f m) (off : BitVec 16) :
    Machine.dataAddress (m.regs.read C2e.r10) off = off.setWidth 11 := by
  rw [Machine.dataAddress, h.frame, show (0 : BitVec 64) = 0#64 from rfl, BitVec.zero_add,
    BitVec.setWidth_setWidth_of_le _ (by omega)]

/-- The scratch words do not overlap. -/
theorem scratch_apart (j k i : Nat) (hj : j < 16) (hk : k < 16) (hne : k ≠ j) (hi : i < 4) :
    ¬ ((Filter.scratch j).setWidth 11 + BitVec.ofNat 11 i
      - (Filter.scratch k).setWidth 11).toNat < 4 := by
  rw [BitVec.toNat_sub, BitVec.toNat_add, toNat_scratch hk, toNat_scratch hj, BitVec.toNat_ofNat]
  omega

/-- A store to a scratch word. The packet ends below them. -/
theorem store_step (h : OnCore b p data f m) (r : Filter.Acc) {k : Nat} (hk : k < 16)
    (hfit : (p.setWidth 11).toNat + data.length ≤ 1984)
    (hr : Machine.Ready pm m (Insn.word ⟨ebpfOpStxw, C2e.r10, r.reg, Filter.scratch k, 0⟩)) :
    ∃ m', OnCore b p data { f with mem := f.mem.setIfInBounds k (f.get r), pc := f.pc + 1 } m'
      ∧ (Machine.Runs pm Q m' → Machine.Runs pm Q m) := by
  have hcls : opclassOf ebpfOpStxw = opcStx := by decide
  have hv : (((f.get r).setWidth 64).extractLsb' 0 32).setWidth 64 = (f.get r).setWidth 64 := by
    rw [lower_extract, lower_zeroExtend]
  let mem' := storeLE m.mem ((Filter.scratch k).setWidth 11) ((f.get r).setWidth 64) 4
  have hnext : m.isaNext pm = { m with mem := mem' }.next := by
    rw [hr.next, Machine.dispatch_stx (by rw [Insn.opcodeOf_word, hcls]), Insn.opcodeOf_word,
      Insn.srcOf_word, h.acc]
    show Machine.storeTo m _ (some (4, _)) = _
    rw [Machine.storeTo, Machine.storeAddress, Insn.dstOf_word, Insn.offsetOf_word,
      h.dataAddress_frame, hv]
    rfl
  refine ⟨_, ?_, Leads.step_to (hr.not_strays ?_) hnext⟩
  · refine ⟨?_, h.running, h.sound, h.upper, h.base, h.frame, h.acc, h.tmp, ?_, ?_⟩
    · rw [Machine.next_ip, h.ip, Machine.ofNat_succ, Nat.add_assoc]
    · intro i v hi
      obtain ⟨hlt, -⟩ := List.getElem?_eq_some_iff.mp hi
      rw [← h.packet i v hi]
      refine storeLE_outside _ _ _ ?_
      rw [BitVec.toNat_sub, BitVec.toNat_add, toNat_scratch hk, BitVec.toNat_ofNat]
      omega
    · exact h.scratch.store (by decide) scratch_apart hk (f.get r)
  · rw [Insn.opcodeOf_word, hcls]
    decide

/-- A jump, taken or not. The word behind a taken one belongs to the program. -/
theorem jump_step (h : OnCore b p data f m) (hp : HoldsAt pm b (code.map Insn.word))
    (hreg : ∀ e ∈ code, badRegisters e.word = false) (hi : code[f.pc]? = some i) (c : Bool)
    (hin : f.pc + 1 + (if c then i.offset.toNat else 0) < code.length)
    (hcls : opclassOf i.opcode = opcJmp) (hcall : i.opcode ≠ ebpfOpCall)
    (hexit : i.opcode ≠ ebpfOpExit)
    (harm : jmpArm i.opcode (m.regs.read i.dst) (m.regs.read i.src) i.imm = some c) :
    ∃ m', OnCore b p data { f with pc := f.pc + 1 + if c then i.offset.toNat else 0 } m'
      ∧ (Machine.Runs pm Q m' → Machine.Runs pm Q m) := by
  have hr := h.ready hp hreg hi
  have hok : ¬ m.Strays pm := by
    intro hs
    have hbad := hs.bad
    obtain ⟨e, he⟩ : ∃ e, code[f.pc + 1]? = some e :=
      ⟨_, List.getElem?_eq_getElem (show f.pc + 1 < code.length by omega)⟩
    rw [Machine.wordAfter, h.ip, Machine.ofNat_succ, BitVec.setWidth_ofNat_of_le (by omega),
      Nat.add_assoc, hp (f.pc + 1) e.word (by rw [List.getElem?_map, he]; rfl),
      hreg e (List.mem_of_getElem? he)] at hbad
    cases hbad
  have hnext : m.isaNext pm = if c then { m with ip := m.target i.word } else m.next := by
    rw [hr.next, Machine.dispatch_jmp (by rw [i.opcodeOf_word, hcls]), Machine.jump,
      i.opcodeOf_word, if_neg hcall, if_neg hexit, i.dstOf_word, i.srcOf_word,
      i.immediateOf_word, harm]
    cases c <;> rfl
  cases c with
  | true =>
      refine ⟨_, ?_, Leads.step_to hok hnext⟩
      refine ⟨?_, h.running, h.sound, h.upper, h.base, h.frame, h.acc, h.tmp, h.packet, h.scratch⟩
      show m.target i.word = _
      rw [Machine.target, h.ip, i.offsetOf_word, Machine.ofNat_succ]
      apply BitVec.eq_of_toNat_eq
      rw [BitVec.toNat_setWidth, BitVec.toNat_add, BitVec.toNat_setWidth, BitVec.toNat_ofNat,
        BitVec.toNat_ofNat, if_pos rfl]
      dsimp only
      omega
  | false =>
      refine ⟨m.next, ?_, Leads.step_to hok hnext⟩
      refine ⟨?_, h.running, h.sound, h.upper, h.base, h.frame, h.acc, h.tmp, h.packet, h.scratch⟩
      rw [Machine.next_ip, h.ip, Machine.ofNat_succ, Nat.add_assoc]
      rfl

/-- The address of a load behind the packet register. -/
theorem packetAddress (p : BitVec 64) (t : BitVec 64) (off : BitVec 16) :
    Machine.dataAddress (p + t) off
      = p.setWidth 11 + BitVec.ofNat 11 (t.toNat + off.toNat) := by
  apply BitVec.eq_of_toNat_eq
  rw [Machine.dataAddress, BitVec.toNat_setWidth, BitVec.toNat_add, BitVec.toNat_add,
    BitVec.toNat_setWidth, BitVec.toNat_add, BitVec.toNat_setWidth, BitVec.toNat_ofNat]
  omega

/-- **One instruction of a filter on the core.** -/
theorem step (h : OnCore b p data f m) (hp : HoldsAt pm b (code.map Insn.word))
    (hreg : ∀ e ∈ code, badRegisters e.word = false) (hi : code[f.pc]? = some i)
    (hfit : (p.setWidth 11).toNat + data.length ≤ 1984) (hn : Filter.Next data i f f')
    (hin : f'.pc < code.length) :
    ∃ m', OnCore b p data f' m' ∧ (Machine.Runs pm Q m' → Machine.Runs pm Q m) := by
  have hr := h.ready hp hreg hi
  have hsrc : ∀ q : Filter.Acc, i.src = q.reg → m.operand i.word true = (f.get q).setWidth 64 := by
    intro q hq
    rw [m.operand_word_reg, hq, h.acc]
  have himm : ∀ k, i.imm = k → m.operand i.word false = k.setWidth 64 := by
    intro k hk
    show (immediateOf i.word).setWidth 64 = _
    rw [i.immediateOf_word, hk]
  cases hn with
  | alu op r k _ hdiv => exact h.alu_step hr r op false rfl rfl (himm k rfl) hdiv
  | aluReg op r q _ hdiv => exact h.alu_step hr r op true rfl rfl (hsrc q rfl) hdiv
  | shift op r k => exact h.shift_step hr r op false rfl rfl (himm k rfl)
  | shiftReg op r q => exact h.shift_step hr r op true rfl rfl (hsrc q rfl)
  | load op n r off _ hop hle hoff hlen =>
      refine h.load_step hr r hop rfl ?_
      have hbase : m.regs.read C2e.r1 = p + 0 := by
        rw [h.base]
        exact (BitVec.add_zero p).symm
      have hat : (0 : BitVec 64).toNat + off.toNat = off.toNat := Nat.zero_add _
      rw [hbase, packetAddress, hat, Filter.loadLE_packetWord h.packet hle hlen]
  | loadAt op n r off t _ hop hle hoff htmp hlen =>
      refine h.load_step hr r hop rfl ?_
      rw [h.tmp t htmp, packetAddress, Filter.loadLE_packetWord h.packet hle hlen]
  | packet =>
      have hcls : opclassOf ebpfOpMov64Reg ≠ opcJmp := by decide
      refine h.tmp_step hr 0 hcls rfl ?_
      have hmov : AluOp.mov.divides = false := rfl
      have hword : opcodeOf (Insn.word ⟨ebpfOpMov64Reg, C2e.regTmp, C2e.r1, 0, 0⟩)
          = AluOp.mov.opcode opcAlu64 true := Insn.opcodeOf_word _
      rw [Machine.dispatch_alu64 hmov hword, if_neg (by decide)]
      rw [m.operand_word_reg, h.base]
      exact congrArg (m.set _) (BitVec.add_zero p).symm
  | packetX t _ htmp =>
      have hcls : opclassOf ebpfOpAdd64Reg ≠ opcJmp := by decide
      refine h.tmp_step hr _ hcls rfl ?_
      have hadd : AluOp.add.divides = false := rfl
      have hword : opcodeOf (Insn.word ⟨ebpfOpAdd64Reg, C2e.regTmp, C2e.regX, 0, 0⟩)
          = AluOp.add.opcode opcAlu64 true := Insn.opcodeOf_word _
      rw [Machine.dispatch_alu64 hadd hword, if_neg (by decide)]
      rw [m.operand_word_reg, Insn.dstOf_word, h.tmp t htmp]
      exact congrArg (m.set _) ((congrArg (p + t + ·) (h.acc .x)).trans (BitVec.add_assoc _ _ _))
  | be n _ hwidth => exact h.be_step hwidth hr
  | fetch r k v _ hv =>
      have hop : loadWidth ebpfOpLdxw = some 4 := by decide
      refine h.load_step hr r hop rfl ?_
      rw [h.dataAddress_frame, h.scratch k v hv]
  | store r k _ hk => exact h.store_step r hk hfit hr
  | ja off _ hoff =>
      have hop : opclassOf ebpfOpJa = opcJmp ∧ ebpfOpJa ≠ ebpfOpCall ∧ ebpfOpJa ≠ ebpfOpExit := by
        decide
      exact h.jump_step hp hreg hi true hin hop.1 hop.2.1 hop.2.2 rfl
  | jmp op k off _ hs hoff =>
      obtain ⟨hcls, hcall, hexit⟩ := op.conditional false
      refine h.jump_step hp hreg hi (op.holds f.a k) hin hcls hcall hexit ?_
      rw [Machine.jmpArm_conditional, hs, if_neg (by decide)]
      exact congrArg some ((congrArg (op.holds · _) (h.acc .a)).trans (op.holds_extend hs _ _))
  | jmpReg op off _ hs hoff =>
      obtain ⟨hcls, hcall, hexit⟩ := op.conditional true
      refine h.jump_step hp hreg hi (op.holds f.x f.a) hin hcls hcall hexit ?_
      rw [Machine.jmpArm_conditional, hs, if_neg (by decide)]
      exact congrArg some ((congrArg₂ op.holds (h.acc .x) (h.acc .a)).trans
        (op.holds_extend hs _ _))

/-- **A filter on the core.** -/
theorem runs (hp : HoldsAt pm b (code.map Insn.word))
    (hreg : ∀ e ∈ code, badRegisters e.word = false)
    (hfit : (p.setWidth 11).toNat + data.length ≤ 1984) {v : BitVec 32}
    (hf : Filter.Returns code data f v) (h : OnCore b p data f m) :
    Machine.Runs pm (fun m' => m'.halt = true ∧ m'.error = false
      ∧ m'.regs.read 0 = v.setWidth 64 ∧ HoldsBytes m'.mem (p.setWidth 11) data) m := by
  induction hf generalizing m with
  | ret fetch hret =>
      obtain ⟨rfl, rfl⟩ := hret
      refine (h.ready hp hreg fetch).exit (Insn.opcodeOf_word _) ?_
      exact ⟨rfl, h.sound, h.acc .a, h.packet⟩
  | next fetch hn rest ih =>
      obtain ⟨m', hm', hrun⟩ := h.step hp hreg fetch hfit hn rest.lt
      exact hrun (ih hm')

end Step

end OnCore

/-! ## A converted program on the core -/

/-- Every instruction that the converter emits names registers that exist. -/
theorem C2e.Emitted.accepted {e : Insn} (h : C2e.Emitted e) (d : BitVec 16) :
    badRegisters { e with offset := d }.word = false := by
  obtain ⟨hsrc, hdst⟩ := h.registers
  have hlow : e.dst.toNat ≤ 10 := by
    rcases hdst with hlow | ⟨-, h10⟩
    · omega
    · rw [h10]
      decide
  rw [badRegisters, Insn.srcOf_word, Insn.dstOf_word]
  dsimp only
  rw [decide_eq_false (by unfold maxRegs; omega), decide_eq_false (by unfold maxRegs; omega)]
  rfl

theorem C2e.convert_registers {checks : Bool} {insns : List Cbpf.BpfInsn} {code : List Insn}
    (hconv : C2e.convert checks insns = .ok code) : ∀ e ∈ code, badRegisters e.word = false := by
  intro e he
  obtain ⟨e₀, d, he₀, rfl⟩ := C2e.convert_emits hconv he
  exact he₀.accepted d

namespace Sys

variable {checks : Bool} {insns : List Cbpf.BpfInsn} {code : List Insn} {data : List (BitVec 8)}
  {p : BitVec 64} {v : BitVec 32} {b n : Nat} {s₀ : Sys} {rst inp : Nat → Inputs}

/-- The registers after a reset edge. -/
theorem regs_of_reset {s : Sys} {i : Inputs} (hr : i.resetNInt = false) :
    (s.step i).cpu.regs = #v[0, i.r1, i.r2, i.r3, i.r4, i.r5, 0, 0, 0, 0, 0] := by
  rw [cpu_reset hr]
  rfl

/-- A program that returns `v` as a filter halts on the core with `v` in `r0`. -/
theorem filter_ends (hreg : ∀ e ∈ code, badRegisters e.word = false)
    (hfilter : ∀ f : Filter, f.pc = 0 → f.mem = Vector.replicate 16 0 →
      Filter.Returns code data f v)
    (hp : HoldsAt s₀.pgm.mem b (code.map Insn.word))
    (hn : 3 ≤ n) (hrst : ∀ t, t < n → (rst t).Resets (BitVec.ofNat 10 b))
    (hq : ∀ t, (inp t).Quiet) (hr1 : (rst (n - 1)).r1 = p)
    (hfit : (p.setWidth 11).toNat + data.length ≤ 1984)
    (hpacket : HoldsBytes ((run rst s₀ n).step (inp 0)).dataMem.mem (p.setWidth 11) data)
    (hzero : ∀ a : BitVec 11, 1984 ≤ a.toNat → ((run rst s₀ n).step (inp 0)).dataMem.mem a = 0) :
    ∃ regs mem, Ends inp (run rst s₀ n) false regs mem ∧ regs.read 0 = v.setWidth 64
      ∧ HoldsBytes mem (p.setWidth 11) data := by
  have h : HeldReset (BitVec.ofNat 10 b) n s₀ (run rst s₀ n) := ⟨rst, hrst, rfl⟩
  have hy : Inputs.Yielding inp := fun t => ⟨t, Nat.le_refl t, fun v _ _ => (hq v).csr⟩
  -- the registers that the last reset edge leaves
  have hregs : (run rst s₀ n).cpu.regs
      = #v[0, p, (rst (n - 1)).r2, (rst (n - 1)).r3, (rst (n - 1)).r4, (rst (n - 1)).r5,
        0, 0, 0, 0, 0] := by
    obtain ⟨k, rfl⟩ := Nat.exists_eq_add_of_le' (show 1 ≤ n by omega)
    rw [← hr1]
    exact regs_of_reset (hrst k (by omega)).resetN
  have hstart : OnCore b p data ⟨0, 0, 0, none, Vector.replicate 16 0⟩
      ((run rst s₀ n).start inp).machine := by
    refine ⟨h.ipNext (by omega), rfl, rfl, rfl, ?_, ?_, ?_, nofun, hpacket, ?_⟩
    · show (run rst s₀ n).cpu.regs.read 1 = p
      rw [hregs]
      rfl
    · show (run rst s₀ n).cpu.regs.read 10 = 0
      rw [hregs]
      rfl
    · intro r
      show (run rst s₀ n).cpu.regs.read r.reg = _
      rw [hregs]
      cases r <;> rfl
    · intro k u hu
      obtain ⟨hk, rfl⟩ := Vector.getElem?_eq_some_iff.mp hu
      rw [Vector.getElem_replicate]
      refine loadLE_zero fun i hi => hzero _ ?_
      rw [BitVec.toNat_add, OnCore.toNat_scratch hk, BitVec.toNat_ofNat]
      omega
  obtain ⟨m, ⟨herr, hr0, hmem⟩, hends⟩ :=
    h.ends hn (fun t => (hq t).toRunning) hy (hstart.runs hp hreg hfit (hfilter _ rfl rfl))
  rw [herr] at hends
  exact ⟨m.regs, m.mem, hends, hr0, hmem⟩

/-- **A classic filter on the core.** The converted program lies at `b`, where a reset of at least
three edges starts the core. The packet lies where the last of them sets `r1` to, below the last
64 bytes of the data memory, and these are zero. Then the core halts without an error and leaves
in `r0` what the interpreter returns. -/
theorem offload (hconv : C2e.convert checks insns = .ok code) (hne : insns ≠ [])
    (hwrap : checks = false → ∀ insn ∈ insns, insn.WrapsAlike)
    (hv : C2e.Decides checks insns data v)
    (hp : HoldsAt s₀.pgm.mem b (code.map Insn.word)) (hroom : b + code.length ≤ 512)
    (hn : 3 ≤ n) (hrst : ∀ t, t < n → (rst t).Resets (BitVec.ofNat 10 b))
    (hq : ∀ t, (inp t).Quiet) (hr1 : (rst (n - 1)).r1 = p)
    (hfit : (p.setWidth 11).toNat + data.length ≤ 1984)
    (hpacket : HoldsBytes ((run rst s₀ n).step (inp 0)).dataMem.mem (p.setWidth 11) data)
    (hzero : ∀ a : BitVec 11, 1984 ≤ a.toNat → ((run rst s₀ n).step (inp 0)).dataMem.mem a = 0) :
    ∃ regs mem, Ends inp (run rst s₀ n) false regs mem ∧ regs.read 0 = v.setWidth 64
      ∧ HoldsBytes mem (p.setWidth 11) data := by
  refine filter_ends (C2e.convert_registers hconv) ?_ hp hn hrst hq hr1 hfit hpacket hzero
  intro f hpc hmem
  refine C2e.returns_of_cleared hconv hpc fun f' hpc' ha hx hmem' => ?_
  exact C2e.convert_returns_cleared hconv (by omega) (by omega) hne hwrap hv hpc'
    ⟨ha, hx, hmem'.trans hmem⟩

/-- The converted filter at address 0. -/
def arpOnly : Program := fun a => ((C2e.arpProgram.map Insn.word)[a.toNat]?).getD 0

theorem holdsBytes_arp : HoldsBytes arpPacket 0 C2e.arpBytes := by
  intro i x hx
  have hall : ∀ i, i < 14 → C2e.arpBytes[i]? = some (arpPacket (0 + BitVec.ofNat 11 i)) := by
    decide
  rw [hall i (List.getElem?_eq_some_iff.mp hx).1] at hx
  exact Option.some.inj hx

theorem arpPacket_zero {a : BitVec 11} (ha : 1984 ≤ a.toNat) : arpPacket a = 0 := by
  rw [arpPacket, if_neg, if_neg]
  · rintro rfl
    exact absurd ha (by decide)
  · rintro rfl
    exact absurd ha (by decide)

theorem offload_arp :
    ∃ regs mem, Ends (fun _ => Inputs.still true)
        (run (fun _ => Inputs.selecting 0) (zero arpOnly arpPacket) 3) false regs mem
      ∧ regs.read 0 = 0xffffffff ∧ HoldsBytes mem 0 C2e.arpBytes := by
  have hp : HoldsAt arpOnly 0 (C2e.arpProgram.map Insn.word) := by
    intro j w hw
    have hj : j < 10 := (List.getElem?_eq_some_iff.mp hw).1
    rw [arpOnly, Nat.zero_add, BitVec.toNat_ofNat, Nat.mod_eq_of_lt (by omega), hw]
    rfl
  have hmem : ((run (fun _ => Inputs.selecting 0) (zero arpOnly arpPacket) 3).step
      (Inputs.still true)).dataMem.mem = arpPacket :=
    first_data (HeldReset.released (heldReset_selecting 0 3 _) (by omega))
      (Inputs.still_resetNInt true)
      (idle_of_resets _ (by omega) fun t _ => ⟨Inputs.selecting_resetNInt 0, rfl⟩)
  have hconv : C2e.convert true C2e.arpFilter = .ok C2e.arpProgram := rfl
  refine offload (b := 0) (p := 0) hconv nofun nofun C2e.decides_arp hp (by decide) (Nat.le_refl 3)
    (fun _ _ => Inputs.selecting_resets 0)
    (fun _ => ⟨Inputs.still_running, Inputs.still_csrCtl1 true⟩) rfl (by decide) ?_ ?_
  · rw [hmem]
    exact holdsBytes_arp
  · rw [hmem]
    exact fun _ => arpPacket_zero

end Sys

end VeBpf
