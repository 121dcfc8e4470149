import VeBpf.Proof.Rules
import VeBpf.Proof.Sequencing

/-!
# The firewall rules

The four rules of `VeBPF_firewall` differ in the address they compare with and in
the result they return. Each decides a packet in the data memory as its comments
say, from whatever address it was loaded to.
-/

namespace VeBpf

open ByteMem

/-! ## The rules -/

/-- The words of a rule as they are in `sim_combined_hex.hex`, between its control words. Only
the comparison with the source address and the last result differ. -/
def firewallRule (compare result : BitVec 64) : List (BitVec 64) :=
  [ 0xb40100000000000c#64,  -- mov32 r1, 12
    0x6914000000000000#64,  -- ldxh r4, [r1]
    0xdc04000000000010#64,  -- be16 r4
    0x1504000200000800#64,  -- jeq r4, 0x0800, +2
    0xb700000000000001#64,  -- mov r0, 0x01
    0x9500000000000000#64,  -- exit
    0xb40100000000001a#64,  -- mov32 r1, 26
    0x6114000000000000#64,  -- ldxw r4, [r1]
    0xdc04000000000020#64,  -- be32 r4
    compare,
    0xb700000000000001#64,  -- mov r0, 0x01
    0x9500000000000000#64,  -- exit
    result,
    0x9500000000000000#64 ] -- exit

inductive FirewallRule where
  | unroutableIp1
  | unroutableIp2
  | reservedIp
  | illegalIp
  deriving DecidableEq, Repr

namespace FirewallRule

/-- `jeq r4, <source address>, +2`. -/
def compare : FirewallRule → BitVec 64
  | unroutableIp1 => 0x15040002f5ffffff#64
  | unroutableIp2 => 0x1504000280000000#64
  | reservedIp => 0x15040002f0000000#64
  | illegalIp => 0x1504000201000000#64

/-- `mov r0, <result>`. -/
def result : FirewallRule → BitVec 64
  | unroutableIp1 => 0xb700000000000002#64
  | unroutableIp2 => 0xb700000000000003#64
  | reservedIp => 0xb700000000000004#64
  | illegalIp => 0xb700000000000005#64

def words (r : FirewallRule) : List (BitVec 64) := firewallRule r.compare r.result

/-- The number of the rule, from 1 to 4. -/
def number : FirewallRule → Nat
  | unroutableIp1 => 1
  | unroutableIp2 => 2
  | reservedIp => 3
  | illegalIp => 4

/-- The source address that a rule looks for. -/
def sourceAddress : FirewallRule → BitVec 8 × BitVec 8 × BitVec 8 × BitVec 8
  | unroutableIp1 => (245, 255, 255, 255)
  | unroutableIp2 => (128, 0, 0, 0)
  | reservedIp => (240, 0, 0, 0)
  | illegalIp => (1, 0, 0, 0)

/-- The packet is an IPv4 packet from the source address of the rule. -/
def Hits (r : FirewallRule) (packet : BitVec 11 → BitVec 8) : Prop :=
  (packet 12 = 0x08 ∧ packet 13 = 0x00)
    ∧ (packet 26, packet 27, packet 28, packet 29) = r.sourceAddress

instance (r : FirewallRule) (packet : BitVec 11 → BitVec 8) : Decidable (r.Hits packet) :=
  inferInstanceAs (Decidable (_ ∧ _))

/-- What a rule returns: its number plus one, or 1 for "keep processing". -/
def verdict (r : FirewallRule) (packet : BitVec 11 → BitVec 8) : BitVec 64 :=
  if r.Hits packet then BitVec.ofNat 64 (r.number + 1) else 1

end FirewallRule

/-- The program memory holds `words` from address `b` on. -/
def HoldsAt (pm : Program) (b : Nat) (words : List (BitVec 64)) : Prop :=
  ∀ j w, words[j]? = some w → pm (BitVec.ofNat 9 (b + j)) = w

/-! ## Network byte order -/

theorem beArm_two (mem : BitVec 11 → BitVec 8) (p : BitVec 11) :
    beArm (loadLE 64 mem p 2) 16 = some ((mem p ++ mem (p + 1)).setWidth 64) := by
  have hbyte : ∀ i, i < 2 → getByte (loadLE 64 mem p 2) i = mem (p + BitVec.ofNat 11 i) :=
    fun i hi => getByte_loadLE mem p hi (by omega)
  show some ((getByte (loadLE 64 mem p 2) 0 ++ getByte (loadLE 64 mem p 2) 1).setWidth 64) = _
  rw [hbyte 0 (by omega), hbyte 1 (by omega), BitVec.add_zero]
  rfl

theorem beArm_four (mem : BitVec 11 → BitVec 8) (p : BitVec 11) :
    beArm (loadLE 64 mem p 4) 32
      = some ((mem p ++ mem (p + 1) ++ mem (p + 2) ++ mem (p + 3)).setWidth 64) := by
  have hbyte : ∀ i, i < 4 → getByte (loadLE 64 mem p 4) i = mem (p + BitVec.ofNat 11 i) :=
    fun i hi => getByte_loadLE mem p hi (by omega)
  show some ((getByte (loadLE 64 mem p 4) 0 ++ getByte (loadLE 64 mem p 4) 1
    ++ getByte (loadLE 64 mem p 4) 2 ++ getByte (loadLE 64 mem p 4) 3).setWidth 64) = _
  rw [hbyte 0 (by omega), hbyte 1 (by omega), hbyte 2 (by omega), hbyte 3 (by omega),
    BitVec.add_zero]
  rfl

/-- The comparison with the type of the frame. -/
theorem type_iff (a b : BitVec 8) :
    (a ++ b).setWidth 64 = (immediateOf 0x1504000200000800#64).setWidth 64
      ↔ a = 0x08 ∧ b = 0x00 := by
  have himm : (immediateOf 0x1504000200000800#64).setWidth 64
      = (0x08#8 ++ 0x00#8).setWidth 64 := by decide
  rw [himm, setWidth_inj (by omega), append_inj]
  rfl

/-- The comparison with the source address. Bit 31 may be set: the immediate is zero-extended,
and so is the field. -/
theorem FirewallRule.compare_iff (r : FirewallRule) (a b c d : BitVec 8) :
    (a ++ b ++ c ++ d).setWidth 64 = (immediateOf r.compare).setWidth 64
      ↔ (a, b, c, d) = r.sourceAddress := by
  have himm : (immediateOf r.compare).setWidth 64
      = (r.sourceAddress.1 ++ r.sourceAddress.2.1 ++ r.sourceAddress.2.2.1
        ++ r.sourceAddress.2.2.2).setWidth 64 := by
    cases r <;> decide
  rw [himm, setWidth_inj (by omega), append_inj, append_inj, append_inj]
  simp only [Prod.ext_iff, and_assoc]

/-! ## One rule on the architecture -/

namespace Machine

variable {pm : Program} {m : Machine} {b j : Nat} {words : List (BitVec 64)}
  {mem : BitVec 11 → BitVec 8} {w : BitVec 64} {Q : Machine → Prop}

/-- The machine is at word `j` of a rule that lies at `b`, and has not touched the packet. -/
structure InRule (b j : Nat) (mem : BitVec 11 → BitVec 8) (m : Machine) : Prop where
  ip : m.ip = BitVec.ofNat 10 (b + j)
  running : m.halt = false
  sound : m.error = false
  upper : m.upper = none
  packet : m.mem = mem

theorem ofNat_succ (i : Nat) : BitVec.ofNat 10 i + 1 = BitVec.ofNat 10 (i + 1) := by
  rw [BitVec.ofNat_add]
  rfl

namespace InRule

theorem set (h : InRule b j mem m) (d : BitVec 4) (v : BitVec 64) :
    InRule b (j + 1) mem (m.set d v) where
  ip := by rw [set_ip, h.ip, ofNat_succ, Nat.add_assoc]
  running := h.running
  sound := h.sound
  upper := h.upper
  packet := h.packet

theorem next (h : InRule b j mem m) : InRule b (j + 1) mem m.next where
  ip := by rw [next_ip, h.ip, ofNat_succ, Nat.add_assoc]
  running := h.running
  sound := h.sound
  upper := h.upper
  packet := h.packet

/-- A taken jump to two words further on. -/
theorem skip (h : InRule b j mem m) (hoff : offsetOf w = 2) :
    InRule b (j + 3) mem { m with ip := m.target w } where
  ip := by
    show m.target w = _
    rw [target, h.ip, hoff, ofNat_succ]
    apply BitVec.eq_of_toNat_eq
    rw [BitVec.toNat_setWidth, BitVec.toNat_add, BitVec.toNat_setWidth, BitVec.toNat_ofNat,
      BitVec.toNat_ofNat, show (2 : BitVec 16).toNat = 2 from rfl]
    omega
  running := h.running
  sound := h.sound
  upper := h.upper
  packet := h.packet

theorem wordAt (h : InRule b j mem m) (hp : HoldsAt pm b words) (hw : words[j]? = some w) :
    m.wordAt pm = w := by
  rw [Machine.wordAt, h.ip, BitVec.setWidth_ofNat_of_le (by omega)]
  exact hp j w hw

theorem wordAfter (h : InRule b j mem m) (hp : HoldsAt pm b words)
    (hw : words[j + 1]? = some w) : m.wordAfter pm = w :=
  h.next.wordAt hp hw

theorem ready (h : InRule b j mem m) (hp : HoldsAt pm b words) (hw : words[j]? = some w)
    (hacc : badRegisters w = false) : Ready pm m w :=
  ⟨h.running, h.upper, h.wordAt hp hw, hacc⟩

end InRule

/-- `mov r0, v; exit`. -/
theorem runs_return (h : InRule b j mem m) (hp : HoldsAt pm b words) (hw : words[j]? = some w)
    (hmov : opcodeOf w = ebpfOpMov64Imm ∧ dstOf w = 0 ∧ srcOf w = 0)
    (hexit : words[j + 1]? = some 0x9500000000000000#64) :
    Runs pm (fun m' => m'.halt = true ∧ m'.error = false ∧ m'.mem = mem
      ∧ m'.regs.read 0 = (immediateOf w).setWidth 64) m := by
  obtain ⟨hop, hdst, hsrc⟩ := hmov
  have hset := dispatch_mov64Imm (m := m) hop
  rw [hdst] at hset
  refine (h.ready hp hw (by rw [badRegisters, hdst, hsrc]; decide)).set (by rw [hop]; decide)
    hset ?_
  have h' := h.set 0 ((immediateOf w).setWidth 64)
  refine (h'.ready hp hexit (by decide)).exit (by decide) ?_
  exact ⟨rfl, h'.sound, h'.packet, Regs.read_write_self _ _ _ (by decide)⟩

/-- `mov32 r1, p; ldx r4, [r1]; be r4`: a field of the packet in host order. -/
theorem runs_field {n : Nat} {v w₀ w₁ w₂ : BitVec 64} (h : InRule b j mem m)
    (hp : HoldsAt pm b words) (hw₀ : words[j]? = some w₀) (hw₁ : words[j + 1]? = some w₁)
    (hw₂ : words[j + 2]? = some w₂)
    (hmov : opcodeOf w₀ = ebpfOpMovImm ∧ dstOf w₀ = 1 ∧ srcOf w₀ = 0)
    (hld : loadWidth (opcodeOf w₁) = some n ∧ dstOf w₁ = 4 ∧ srcOf w₁ = 1 ∧ offsetOf w₁ = 0)
    (hbe : opcodeOf w₂ = ebpfOpBe ∧ dstOf w₂ = 4 ∧ srcOf w₂ = 0)
    (hv : beArm (loadLE 64 mem ((immediateOf w₀).setWidth 11) n) (immediateOf w₂) = some v)
    (hrest : ∀ m', InRule b (j + 3) mem m' → m'.regs.read 4 = v → Runs pm Q m') :
    Runs pm Q m := by
  obtain ⟨hmovOp, hmovDst, hmovSrc⟩ := hmov
  obtain ⟨hldOp, hldDst, hldSrc, hldOff⟩ := hld
  obtain ⟨hbeOp, hbeDst, hbeSrc⟩ := hbe
  -- the address
  have hset := dispatch_movImm (m := m) hmovOp
  rw [hmovDst] at hset
  refine (h.ready hp hw₀ (by rw [badRegisters, hmovDst, hmovSrc]; decide)).set
    (by rw [hmovOp]; decide) hset ?_
  have h₁ := h.set 1 ((immediateOf w₀).setWidth 64)
  have hr1 : (m.set 1 ((immediateOf w₀).setWidth 64)).regs.read 1
      = (immediateOf w₀).setWidth 64 := Regs.read_write_self _ _ _ (by decide)
  generalize m.set 1 ((immediateOf w₀).setWidth 64) = m₁ at h₁ hr1 ⊢
  -- the bytes of the packet
  have haddr : m₁.loadAddress w₁ = (immediateOf w₀).setWidth 11 := by
    rw [loadAddress, hldSrc, hr1, hldOff, dataAddress]
    simp
  have hload := dispatch_load (m := m₁) hldOp
  rw [hldDst, haddr, h₁.packet] at hload
  refine (h₁.ready hp hw₁ (by rw [badRegisters, hldDst, hldSrc]; decide)).set
    (by rw [opclass_of_loadWidth hldOp]; decide) hload ?_
  have h₂ := h₁.set 4 (loadLE 64 mem ((immediateOf w₀).setWidth 11) n)
  have hr4 : (m₁.set 4 (loadLE 64 mem ((immediateOf w₀).setWidth 11) n)).regs.read 4
      = loadLE 64 mem ((immediateOf w₀).setWidth 11) n := Regs.read_write_self _ _ _ (by decide)
  generalize m₁.set 4 (loadLE 64 mem ((immediateOf w₀).setWidth 11) n) = m₂ at h₂ hr4 ⊢
  -- in host order
  have hswap := dispatch_be (m := m₂) (v := v) hbeOp (by rw [hbeDst, hr4, hv])
  rw [hbeDst] at hswap
  refine (h₂.ready hp hw₂ (by rw [badRegisters, hbeDst, hbeSrc]; decide)).set
    (by rw [hbeOp]; decide) hswap ?_
  exact hrest _ (h₂.set 4 v) (Regs.read_write_self _ _ _ (by decide))

/-- `jeq r4, v, +2` in front of `mov` or the like. -/
theorem runs_compare {w' : BitVec 64} (h : InRule b j mem m) (hp : HoldsAt pm b words)
    (hw : words[j]? = some w) (hw' : words[j + 1]? = some w')
    (hjeq : opcodeOf w = ebpfOpJeqImm ∧ dstOf w = 4 ∧ srcOf w = 0 ∧ offsetOf w = 2)
    (hacc : badRegisters w' = false)
    (htaken : m.regs.read 4 = (immediateOf w).setWidth 64 →
      ∀ m', InRule b (j + 3) mem m' → Runs pm Q m')
    (hfall : m.regs.read 4 ≠ (immediateOf w).setWidth 64 →
      ∀ m', InRule b (j + 1) mem m' → Runs pm Q m') : Runs pm Q m := by
  obtain ⟨hop, hdst, hsrc, hoff⟩ := hjeq
  refine (h.ready hp hw (by rw [badRegisters, hdst, hsrc]; decide)).jeqImm hop ?_ ?_ ?_
  · rw [h.wordAfter hp hw', hacc]
  · intro heq
    rw [hdst] at heq
    exact htaken heq _ (h.skip hoff)
  · intro hne
    rw [hdst] at hne
    exact hfall hne _ h.next

/-- **A rule on the architecture.** -/
theorem runs_rule (r : FirewallRule) (h : InRule b 0 mem m) (hp : HoldsAt pm b r.words) :
    Runs pm (fun m' => m'.halt = true ∧ m'.error = false ∧ m'.mem = mem
      ∧ m'.regs.read 0 = r.verdict mem) m := by
  -- "keep processing" is what a packet gets that does not hit
  have hkeep : ¬ r.Hits mem → ∀ (j : Nat) (m' : Machine), InRule b j mem m' →
      r.words[j]? = some 0xb700000000000001#64 →
      r.words[j + 1]? = some 0x9500000000000000#64 →
      Runs pm (fun m' => m'.halt = true ∧ m'.error = false ∧ m'.mem = mem
        ∧ m'.regs.read 0 = r.verdict mem) m' := by
    intro hmiss j m' h' hmov hexit
    rw [FirewallRule.verdict, if_neg hmiss]
    exact runs_return h' hp hmov ⟨by decide, by decide, by decide⟩ hexit
  -- the type of the frame
  refine runs_field h hp rfl rfl rfl ⟨by decide, by decide, by decide⟩
    ⟨by decide, by decide, by decide, by decide⟩ ⟨by decide, by decide, by decide⟩
    (beArm_two mem 12) ?_
  intro m₁ h₁ htype
  refine runs_compare h₁ hp rfl rfl ⟨by decide, by decide, by decide, by decide⟩ (by decide)
    ?_ ?_
  · intro hip m₂ h₂
    rw [htype, type_iff] at hip
    -- the source address
    refine runs_field h₂ hp rfl rfl rfl ⟨by decide, by decide, by decide⟩
      ⟨by decide, by decide, by decide, by decide⟩ ⟨by decide, by decide, by decide⟩
      (beArm_four mem 26) ?_
    intro m₃ h₃ hsource
    have hcompare : opcodeOf r.compare = ebpfOpJeqImm ∧ dstOf r.compare = 4
        ∧ srcOf r.compare = 0 ∧ offsetOf r.compare = 2 := by
      cases r <;> decide
    refine runs_compare h₃ hp rfl rfl hcompare (by decide) ?_ ?_
    · intro hfrom m₄ h₄
      rw [hsource, r.compare_iff] at hfrom
      have hresult : opcodeOf r.result = ebpfOpMov64Imm ∧ dstOf r.result = 0
          ∧ srcOf r.result = 0 := by
        cases r <;> decide
      have himm : (immediateOf r.result).setWidth 64 = BitVec.ofNat 64 (r.number + 1) := by
        cases r <;> decide
      rw [FirewallRule.verdict, if_pos ⟨hip, hfrom⟩, ← himm]
      exact runs_return h₄ hp rfl hresult rfl
    · intro helse m₄ h₄
      refine hkeep (fun hhit => helse ?_) 10 m₄ h₄ rfl rfl
      rw [hsource, r.compare_iff]
      exact hhit.2
  · intro hother m₂ h₂
    refine hkeep (fun hhit => hother ?_) 4 m₂ h₂ rfl rfl
    rw [htype, type_iff]
    exact hhit.1

end Machine

/-! ## One rule on the core -/

namespace Sys

variable {b n : Nat} {s₀ : Sys} {rst inp : Nat → Inputs}

/-- **The firewall.** A rule that lies at `b`, selected by a reset of at least three edges, halts
without an error, leaves the packet alone and returns its verdict on it. The packet is what the
data memory holds once the last byte on its way at the end of the reset has landed; without the
host that is what it held all the time. -/
theorem firewall_decides (r : FirewallRule) (hp : HoldsAt s₀.pgm.mem b r.words) (hn : 3 ≤ n)
    (hrst : ∀ t, t < n → (rst t).Resets (BitVec.ofNat 10 b)) (hrun : ∀ t, (inp t).Quiet) :
    (∃ regs, Ends inp (run rst s₀ n) false regs ((run rst s₀ n).step (inp 0)).dataMem.mem
      ∧ regs.read 0 = r.verdict ((run rst s₀ n).step (inp 0)).dataMem.mem)
    ∧ ((∀ t, t < n → (rst t).csrCtl1 = false) →
      ((run rst s₀ n).step (inp 0)).dataMem.mem = s₀.dataMem.mem) := by
  have h : HeldReset (BitVec.ofNat 10 b) n s₀ (run rst s₀ n) := ⟨rst, hrst, rfl⟩
  have hrel := h.released (by omega)
  constructor
  · have hy : Inputs.Yielding inp := fun t => ⟨t, Nat.le_refl t, fun v _ _ => (hrun v).csr⟩
    have hstart : Machine.InRule b 0 ((run rst s₀ n).step (inp 0)).dataMem.mem
        ((run rst s₀ n).start inp).machine :=
      ⟨h.ipNext (by omega), rfl, rfl, rfl, rfl⟩
    obtain ⟨m, ⟨herr, hmem, hr0⟩, hends⟩ :=
      h.ends hn (fun t => (hrun t).toRunning) hy (Machine.runs_rule r hstart hp)
    rw [herr, hmem] at hends
    exact ⟨m.regs, hends, hr0⟩
  · intro haway
    have hidle := idle_of_resets s₀ (by omega : 1 ≤ n)
      fun t ht => ⟨(hrst t ht).resetN, haway t ht⟩
    exact first_data hrel (hrun 0).resetN hidle

/-- The first rule at address 0. -/
def unroutableOnly : Program := fun a => (FirewallRule.unroutableIp1.words[a.toNat]?).getD 0

theorem firewall_decides_unroutableOnly :
    (∃ regs, Ends (fun _ => Inputs.still true)
        (run (fun _ => Inputs.selecting 0) (zero unroutableOnly fun _ => 0) 3) false regs
        ((run (fun _ => Inputs.selecting 0) (zero unroutableOnly fun _ => 0) 3).step
          (Inputs.still true)).dataMem.mem
      ∧ regs.read 0 = FirewallRule.unroutableIp1.verdict
        ((run (fun _ => Inputs.selecting 0) (zero unroutableOnly fun _ => 0) 3).step
          (Inputs.still true)).dataMem.mem)
    ∧ ((∀ t, t < 3 → (Inputs.selecting 0).csrCtl1 = false) →
      ((run (fun _ => Inputs.selecting 0) (zero unroutableOnly fun _ => 0) 3).step
        (Inputs.still true)).dataMem.mem = fun _ => 0) := by
  have hp : HoldsAt unroutableOnly 0 FirewallRule.unroutableIp1.words := by
    intro j w hw
    have hj : j < 14 := (List.getElem?_eq_some_iff.mp hw).1
    rw [unroutableOnly, Nat.zero_add, BitVec.toNat_ofNat, Nat.mod_eq_of_lt (by omega), hw]
    rfl
  exact firewall_decides .unroutableIp1 hp (Nat.le_refl 3)
    (fun _ _ => Inputs.selecting_resets 0)
    fun _ => ⟨Inputs.still_running, Inputs.still_csrCtl1 true⟩

end Sys

end VeBpf
