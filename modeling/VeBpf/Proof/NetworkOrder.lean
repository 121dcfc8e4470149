import VeBpf.Lib.ByteOrder
import VeBpf.Proof.Arithmetic
import VeBpf.Proof.DataAccess
import VeBpf.Proof.Rules
import VeBpf.Proof.Successors

/-!
# Network byte order

Packets hold their fields highest byte first. A load and a `BE` of the same width
read one: the load collects the bytes lowest first, and `BE` turns them round.
-/

namespace VeBpf

open ByteMem ByteOrder HexText

/-! ## The two tables -/

section Tables

variable {d : BitVec 64} {w : BitVec 64} {n : Nat}

/-- **`BE`** turns the low bytes of its destination round and clears the others. -/
theorem beArm_swapped (hn : n = 2 ∨ n = 4 ∨ n = 8) :
    beArm d (BitVec.ofNat 32 (8 * n)) = some (swapped d n) := by
  rcases hn with rfl | rfl | rfl
  · exact congrArg some (two_bytes _ _)
  · exact congrArg some (four_bytes _ _ _ _)
  · exact congrArg some (eight_bytes _ _ _ _ _ _ _ _)

/-- The low bytes of a word, zero-extended. -/
theorem ofNat_reverse_lowBytes (d : BitVec 64) (n : Nat) :
    BitVec.ofNat 64 (beNat (lowBytes d n).reverse) = (d.setWidth (8 * n)).setWidth 64 := by
  have hpow : (256 : Nat) ^ n = 2 ^ (8 * n) := by rw [Nat.pow_mul]
  rw [beNat_reverse_lowBytes, hpow, ← BitVec.toNat_setWidth, BitVec.ofNat_toNat]

/-- **`LE`** clears all but the low bytes of its destination. -/
theorem leArm_low (hn : n = 2 ∨ n = 4 ∨ n = 8) :
    leArm d (BitVec.ofNat 32 (8 * n)) = some ((d.setWidth (8 * n)).setWidth 64) := by
  rcases hn with rfl | rfl | rfl
  · rw [← ofNat_reverse_lowBytes d]
    exact congrArg some (two_bytes _ _)
  · rw [← ofNat_reverse_lowBytes d]
    exact congrArg some (four_bytes _ _ _ _)
  · rw [← ofNat_reverse_lowBytes d]
    exact congrArg some (eight_bytes _ _ _ _ _ _ _ _)

/-- Turning the bytes round twice. -/
theorem swapped_twice (hn : n ≤ 8) :
    swapped (swapped d n) n = (d.setWidth (8 * n)).setWidth 64 := by
  rw [swapped_swapped d hn, ← ofNat_reverse_lowBytes, beNat_reverse_lowBytes]

theorem Machine.dispatch_le {m : Machine} {v : BitVec 64} (h : opcodeOf w = ebpfOpLe)
    (hv : leArm (m.regs.read (dstOf w)) (immediateOf w) = some v) :
    m.dispatch w = m.set (dstOf w) v := by
  have hres : (m.aluWork w).res = some v := by
    rw [aluWork, h, ← hv]
    rfl
  rw [dispatch_alu (Or.inl (by rw [h]; decide)), hres, aluWork, h]
  rfl

end Tables

/-! ## Fields of a packet -/

/-- The byte `i` of the field at `regs[src] + offset`, with the offset signed and the address
modulo 2048. -/
def fieldByte (s : Sys) (i : Nat) : BitVec 8 :=
  s.dataMem.mem (BitVec.ofInt 11 ((s.cpu.regs.read (srcOf s.cpu.instruction)).toNat
    + (offsetOf s.cpu.instruction).toInt + i))

/-- The field of `n` bytes as a number, highest byte first. -/
def field (s : Sys) (n : Nat) : BitVec 64 :=
  BitVec.ofNat 64 (beNat ((List.range n).map (fieldByte s)))

/-- What a load has collected, turned round. -/
theorem swapped_load (s : Sys) {n : Nat} (hn : n ≤ 8) :
    swapped (loadLE 64 s.machine.mem (s.machine.loadAddress s.cpu.instruction) n) n
      = field s n := by
  have hbyte : ∀ i : Nat, s.machine.mem (s.machine.loadAddress s.cpu.instruction
      + BitVec.ofNat 11 i) = fieldByte s i := by
    intro i
    have hi : BitVec.ofNat 11 i = BitVec.ofInt 11 (i : Int) := (BitVec.ofInt_natCast 11 i).symm
    show s.dataMem.mem (Machine.dataAddress _ _ + _) = _
    rw [Machine.dataAddress_eq, hi, ← BitVec.ofInt_add]
    rfl
  rw [swapped, lowBytes_loadLE _ _ (by omega), field, List.map_congr_left fun i _ => hbyte i]

/-- The word is a `BE` or `LE`, whichever `op` is, of the low `n` bytes of register `d`. -/
structure SwapWord (op : BitVec 8) (n : Nat) (d : BitVec 4) (w : BitVec 64) : Prop where
  op : opcodeOf w = op
  width : immediateOf w = BitVec.ofNat 32 (8 * n)
  dst : dstOf w = d
  accepted : badRegisters w = false

namespace SwapWord

variable {n : Nat} {d : BitVec 4} {w : BitVec 64} {m : Machine}

theorem dispatch_be (h : SwapWord ebpfOpBe n d w) (hn : n = 2 ∨ n = 4 ∨ n = 8) :
    m.dispatch w = m.set d (swapped (m.regs.read d) n) := by
  have harm : beArm (m.regs.read (dstOf w)) (immediateOf w)
      = some (swapped (m.regs.read d) n) := by
    rw [h.width, h.dst, beArm_swapped hn]
  rw [Machine.dispatch_be h.op harm, h.dst]

theorem dispatch_le (h : SwapWord ebpfOpLe n d w) (hn : n = 2 ∨ n = 4 ∨ n = 8) :
    m.dispatch w = m.set d (((m.regs.read d).setWidth (8 * n)).setWidth 64) := by
  have harm : leArm (m.regs.read (dstOf w)) (immediateOf w)
      = some (((m.regs.read d).setWidth (8 * n)).setWidth 64) := by
    rw [h.width, h.dst, leArm_low hn]
  rw [Machine.dispatch_le h.op harm, h.dst]

/-- Such a word does not touch the data memory. -/
theorem not_accesses (h : SwapWord ebpfOpBe n d w) : ¬ accesses w := by
  rw [accesses, h.op]
  decide

theorem bound (h : SwapWord ebpfOpBe n d w) : d.toNat < maxRegs := by
  have hacc := h.accepted
  rw [badRegisters, Bool.or_eq_false_iff, decide_eq_false_iff_not,
    decide_eq_false_iff_not, h.dst] at hacc
  omega

/-- A `BE` of the register that has just been set. -/
theorem follows {v : BitVec 64} (h : SwapWord ebpfOpBe n d w) (hn : n = 2 ∨ n = 4 ∨ n = 8) :
    badRegisters w = false ∧ ¬ accesses w
      ∧ (m.set d v).dispatch w = (m.set d v).set d (swapped v n) := by
  refine ⟨h.accepted, h.not_accesses, ?_⟩
  rw [h.dispatch_be hn, Machine.set_regs, Regs.read_write_self _ _ _ h.bound]

end SwapWord

namespace Sys

variable {s : Sys} {inp : Nat → Inputs} {n : Nat}

/-- **Network byte order.** A load of two, four or eight bytes and a `BE` of that width after it
leave the field in the destination, highest byte first. A `BE` turns the low bytes round, and two
of them, or one `LE`, clear the others. Nothing else changes. -/
theorem network_order (h : s.Begins) (hr : ∀ t, (inp t).resetNInt = true)
    (hreg : badRegisters s.cpu.instruction = false) (hn : n = 2 ∨ n = 4 ∨ n = 8) :
    (loadWidth (opcodeOf s.cpu.instruction) = some n →
      (Inputs.Yielding inp →
        (∃ x, (run inp s x).cpu.halt = true) ∨ ∃ t, s.Next inp t)
      ∧ s.NextSets inp (SwapWord ebpfOpBe n (dstOf s.cpu.instruction))
          (dstOf s.cpu.instruction) (field s n))
    ∧ (SwapWord ebpfOpBe n (dstOf s.cpu.instruction) s.cpu.instruction →
      s.Sets inp (dstOf s.cpu.instruction)
        (swapped (s.cpu.regs.read (dstOf s.cpu.instruction)) n)
      ∧ ((∃ x, (run inp s x).cpu.halt = true) ∨ ∃ t, s.Next inp t)
      ∧ s.NextSets inp (SwapWord ebpfOpBe n (dstOf s.cpu.instruction))
          (dstOf s.cpu.instruction)
          (((s.cpu.regs.read (dstOf s.cpu.instruction)).setWidth (8 * n)).setWidth 64))
    ∧ (SwapWord ebpfOpLe n (dstOf s.cpu.instruction) s.cpu.instruction →
      s.Sets inp (dstOf s.cpu.instruction)
        (((s.cpu.regs.read (dstOf s.cpu.instruction)).setWidth (8 * n)).setWidth 64)) := by
  refine ⟨?_, ?_, ?_⟩
  · intro hld
    have hop : opcodeOf s.cpu.instruction ≠ ebpfOpLddw := by
      intro hlddw
      rw [hlddw] at hld
      cases hld
    -- the load leaves the bytes lowest first, and the `BE` turns what it finds
    refine ⟨fun hy => h.next_exists hr hop fun _ => hy, ?_⟩
    have hset := h.next_sets (P := SwapWord ebpfOpBe n (dstOf s.cpu.instruction)) hr hreg hop
      (Machine.dispatch_load hld) fun w hw => hw.follows hn
    rw [swapped_load s (by omega)] at hset
    exact hset
  · intro hbe
    have hop : opcodeOf s.cpu.instruction ≠ ebpfOpLddw := by rw [hbe.op]; decide
    have hdispatch := hbe.dispatch_be (m := s.machine) hn
    obtain ⟨u, hu⟩ := h.completes hr fun ha => absurd ha hbe.not_accesses
    refine ⟨h.sets hr hreg hu hdispatch,
      h.next_exists hr hop fun ha => absurd ha hbe.not_accesses, ?_⟩
    have hset := h.next_sets (P := SwapWord ebpfOpBe n (dstOf s.cpu.instruction)) hr hreg hop
      hdispatch fun w hw => hw.follows hn
    rw [swapped_twice (by omega)] at hset
    exact hset
  · intro hle
    obtain ⟨u, hu⟩ := h.completes_alu hr (Or.inl (by rw [hle.op]; decide))
    exact h.sets hr hreg hu (hle.dispatch_le (m := s.machine) hn)

/-- `LDXH r4, [r0 + 12]`, and then `BE16 r4` over and over. -/
def readField : Program := fun a =>
  if a = 0 then 0x6904000c00000000#64 else 0xdc04000000000010#64

/-- A packet of type `0x0806`. -/
def arpPacket : BitVec 11 → BitVec 8 := fun a =>
  if a = 12 then 0x08 else if a = 13 then 0x06 else 0

/-- The design in the first cycle of the load. -/
def readingField : Sys :=
  run (fun _ => Inputs.still true) ((zero readField arpPacket).step (Inputs.still false)) 2

theorem network_order_field :
    ∃ u, (run (fun _ => Inputs.still true) readingField u).cpu.regs
      = readingField.cpu.regs.write 4 0x0806 := by
  have hreach : ∀ t, Reachable (run (fun _ => Inputs.still true)
      ((zero readField arpPacket).step (Inputs.still false)) t) :=
    (Reachable.reset _ _ (Inputs.still_resetNInt false)).after _
  have hfirst : readingField.Begins :=
    (hreach 1).begins (by decide) (by decide) (by decide) (by decide)
  have hsecond : (run (fun _ => Inputs.still true) readingField 15).Begins :=
    (hfirst.reachable.after _ 14).begins (by decide) (by decide) (by decide) (by decide)
  -- between the two only the answer to the load is a `STATE_DECODE` cycle
  have hload : ∀ x, x < 15 → 0 < x →
      (run (fun _ => Inputs.still true) readingField x).cpu.stateNext = .decode →
      (run (fun _ => Inputs.still true) readingField x).cpu.cpuDataAck = true := by decide
  have hnext : readingField.Next (fun _ => Inputs.still true) 15 := by
    refine ⟨by omega, hsecond, ?_⟩
    intro x h0 hx hb
    have htaken := hload x hx h0 hb.state
    rw [hb.rest.data.taken] at htaken
    cases htaken
  obtain ⟨u, -, hregs, -, -⟩ := ((network_order hfirst (fun _ => Inputs.still_resetNInt true)
    (by decide) (Or.inl rfl)).1 (by decide)).2 15 hnext
    ⟨by decide, by decide, by decide, by decide⟩
  have hdst : dstOf readingField.cpu.instruction = 4 := by decide
  have hfield : field readingField 2 = 0x0806 := by decide
  rw [hdst, hfield] at hregs
  exact ⟨15 + u, hregs⟩

end Sys

end VeBpf
