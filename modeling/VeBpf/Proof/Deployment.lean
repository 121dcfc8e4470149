import Mathlib.Data.List.Nodup
import VeBpf.Proof.Loading
import VeBpf.Proof.Offload
import VeBpf.Proof.Upload

/-!
# From classic filters to a verdict

The whole way of a filter: it is converted and assembled, printed to a file with the
other filters, read again, sent over the serial line and written through the load
port. A reset that selects the filter then starts it on a packet. Whatever the file
and the line do to the words, the core decides as the interpreter does.
-/

namespace VeBpf

open ByteMem Cbpf C2e Ubpf

/-! ## What the converter makes can be encoded -/

theorem C2e.Emitted.supported {e : Insn} (h : Emitted e) (d : BitVec 16) :
    Insn.Supported { e with offset := d } := by
  have hplain : ∀ op ∈ plainOps, op ∈ supportedOpcodes := List.all_iff_forall_prop.mp (by decide)
  have hstore : ∀ op ∈ storeOps, op ∈ supportedOpcodes := List.all_iff_forall_prop.mp (by decide)
  have hendian : ∀ op ∈ endianOps, op ∈ supportedOpcodes := List.all_iff_forall_prop.mp (by decide)
  have hdivImm : ∀ op ∈ divImmOps, op ∈ supportedOpcodes := List.all_iff_forall_prop.mp (by decide)
  have hjump : ∀ op ∈ jumpOps, op ∈ supportedOpcodes := List.all_iff_forall_prop.mp (by decide)
  refine Or.inl ?_
  cases h with
  | straight h =>
      rcases h.kind with hmem | hmem | ⟨hbe, -⟩
      · exact hplain _ hmem
      · exact hstore _ hmem
      · exact hendian _ (hbe ▸ be_mem)
  | divide op k hdiv => exact hdivImm _ (divide_mem hdiv)
  | ja => exact hjump _ ja_mem
  | compare off h => exact hjump _ h.mem

theorem C2e.convert_supported {checks : Bool} {insns : List BpfInsn} {code : List Insn}
    (hconv : convert checks insns = .ok code) : ∀ e ∈ code, e.Supported := by
  intro e he
  obtain ⟨e₀, d, he₀, rfl⟩ := convert_emits hconv he
  exact he₀.supported d

/-! ## What the load port leaves in the program memory -/

namespace Sys

/-- In its first `n` edges the load port carries the words of the receiver, one after the other,
with edges between them on which it carries none. -/
structure Delivers (up : Nat → Inputs) (n : Nat) (words : List (BitVec 16 × BitVec 64)) : Prop where
  writes : (List.range n).filterMap (fun t => programWrite (up t))
    = words.map fun x => (x.1.setWidth 10, x.2)
  kept : ∀ t, t < n → (up t).vebpfProgResetIn = false

/-- The words of the receiver, where they have arrived. -/
theorem Delivers.holds {up : Nat → Inputs} {n : Nat} {ws : List (BitVec 64)} {s : Sys}
    (h : Delivers up n (ws.zipIdx.map fun x => (BitVec.ofNat 16 x.2, x.1)))
    (hlen : ws.length ≤ 512) : HoldsAt (run up s n).pgm.mem 0 ws := by
  let l := ws.zipIdx.map fun x => ((BitVec.ofNat 16 x.2).setWidth 10, x.1)
  have hmem : (run up s n).pgm.mem = WritePort.stores programCell s.pgm.mem l := by
    rw [WritePort.run_stores (fun t => (run up s t).pgm.mem)
      fun t ht => (pgm_of_step (h.kept t ht)).1, h.writes, List.map_map]
    rfl
  have hcell : ∀ j : Nat, programCell ((BitVec.ofNat 16 j).setWidth 10) = BitVec.ofNat 9 j := by
    intro j
    apply BitVec.eq_of_toNat_eq
    rw [programCell, BitVec.toNat_setWidth, BitVec.toNat_setWidth, BitVec.toNat_ofNat,
      BitVec.toNat_ofNat]
    omega
  have hcells : (l.map fun p => programCell p.1)
      = (List.range ws.length).map fun j => BitVec.ofNat 9 j := by
    rw [List.map_map, List.range_eq_range', ← List.zipIdx_map_snd 0 ws, List.map_map]
    exact List.map_congr_left fun x _ => hcell x.2
  have hnodup : (l.map fun p => programCell p.1).Nodup := by
    rw [hcells]
    refine List.Nodup.map_on ?_ List.nodup_range
    intro i hi j hj heq
    rw [List.mem_range] at hi hj
    have hnat := congrArg BitVec.toNat heq
    rw [BitVec.toNat_ofNat, BitVec.toNat_ofNat] at hnat
    omega
  intro j w hw
  have hl : ((BitVec.ofNat 16 j).setWidth 10, w) ∈ l := by
    refine List.mem_map.mpr ⟨(w, j), ?_, rfl⟩
    exact List.mem_zipIdx_iff_getElem?.mpr hw
  rw [Nat.zero_add, hmem, ← hcell]
  exact WritePort.stores_of_mem _ hnodup hl

/-- **What the file leaves in the program memory**, once it has been sent. -/
theorem Delivers.holds_rules {up : Nat → Inputs} {n : Nat} {rules : List (List Insn)}
    {text : List Char} {program : List (List Char)} {sent : List (BitVec 8)} {s : Sys}
    (hsup : ∀ r ∈ rules, ∀ i ∈ r, i.Supported)
    (htext : combinedCompile (rules.map assemble) = some text)
    (hprogram : readProgram text = some program) (hsent : upload program = some sent)
    (h : Delivers up n (programLoader sent)) (hlen : program.length ≤ 512) :
    HoldsAt (run up s n).pgm.mem 0 (memoryWords rules) ∧ (memoryWords rules).length ≤ 512 := by
  have hne : rules ≠ [] := by
    rintro rfl
    cases htext
  obtain rfl := Option.some.inj ((combinedCompile_assemble hne).symm.trans htext)
  obtain rfl := Option.some.inj ((readProgram_printWord (hexWords rules)).symm.trans hprogram)
  obtain ⟨sent', hsent', hload⟩ := programLoader_uploadFrom (hexWords rules) 0
  obtain rfl := Option.some.inj (hsent'.symm.trans hsent)
  have hwords := map_memoryForm hsup
  rw [List.length_map] at hlen
  rw [← hwords, List.length_map]
  refine ⟨Delivers.holds ?_ (by rwa [List.length_map]), hlen⟩
  rw [hload] at h
  rw [List.zipIdx_map, List.map_map]
  exact h

/-- Rule `k` begins where it has been put. -/
theorem holdsAt_rule {pm : Program} {rules : List (List Insn)} {r : List Insn} {k : Nat}
    (h : HoldsAt pm 0 (memoryWords rules)) (hk : rules[k]? = some r) :
    HoldsAt pm (Markers.entry rules k) (r.map Insn.word) := by
  intro j w hw
  have hj := (List.getElem?_eq_some_iff.mp hw).1
  have hblock : (rules.map (List.map Insn.word))[k]? = some (r.map Insn.word) := by
    rw [List.getElem?_map, hk]
    rfl
  have hget := controlWords.getElem?_frame hblock hj
  rw [Markers.entry_map, hw] at hget
  have hat := h _ w hget
  rwa [Nat.zero_add] at hat

theorem length_of_rules {rules : List (List Insn)} {r : List Insn} {k : Nat}
    (hk : rules[k]? = some r) : r.length ≤ (memoryWords rules).length := by
  have hblock : (rules.map (List.map Insn.word))[k]? = some (r.map Insn.word) := by
    rw [List.getElem?_map, hk]
    rfl
  by_contra hc
  have hlast : r.length - 1 < (r.map Insn.word).length := by
    rw [List.length_map]
    omega
  have hget := controlWords.getElem?_frame hblock hlast
  rw [List.getElem?_eq_getElem hlast] at hget
  have hlt : Markers.entry _ k + (r.length - 1) < (memoryWords rules).length :=
    (List.getElem?_eq_some_iff.mp hget).1
  rw [Markers.entry_map, Markers.entry] at hlt
  omega

/-! ## The whole way -/

variable {checks : Bool} {filters : List (List BpfInsn)} {codes : List (List Insn)}
  {insns : List BpfInsn} {data : List (BitVec 8)} {text : List Char} {program : List (List Char)}
  {sent : List (BitVec 8)} {p : BitVec 64} {v : BitVec 32} {k m n : Nat} {s₀ : Sys}
  {up rst inp : Nat → Inputs}

/-- **Filters that are deployed decide as they were written.** All filters have been converted,
put into one file and sent, and the load port has carried what the receiver made of it. A reset of
at least three edges that selects filter `k` starts it on a packet, below the last 64 bytes of the
data memory, which are zero. The core then halts without an error, and `r0` is what the
interpreter returns. -/
theorem deployed (hfilters : List.Forall₂ (fun insns code => convert checks insns = .ok code)
      filters codes)
    (htext : combinedCompile (codes.map assemble) = some text)
    (hprogram : readProgram text = some program) (hsent : upload program = some sent)
    (hup : Delivers up m (programLoader sent)) (hlen : program.length ≤ 512)
    (hk : filters[k]? = some insns) (hne : insns ≠ [])
    (hwrap : checks = false → ∀ insn ∈ insns, insn.WrapsAlike)
    (hv : Decides checks insns data v)
    (hn : 3 ≤ n) (hrst : ∀ t, t < n → (rst t).Resets (BitVec.ofNat 10 (Markers.entry codes k)))
    (hq : ∀ t, (inp t).Quiet) (hr1 : (rst (n - 1)).r1 = p)
    (hfit : (p.setWidth 11).toNat + data.length ≤ 1984)
    (hpacket : HoldsBytes ((run rst (run up s₀ m) n).step (inp 0)).dataMem.mem (p.setWidth 11) data)
    (hzero : ∀ a : BitVec 11, 1984 ≤ a.toNat →
      ((run rst (run up s₀ m) n).step (inp 0)).dataMem.mem a = 0) :
    ∃ regs mem, Ends inp (run rst (run up s₀ m) n) false regs mem ∧ regs.read 0 = v.setWidth 64
      ∧ HoldsBytes mem (p.setWidth 11) data := by
  have hsup : ∀ r ∈ codes, ∀ i ∈ r, i.Supported := by
    intro r hr
    obtain ⟨_, -, hconv⟩ := Attempt.mem_of_forall₂ hfilters hr
    exact convert_supported hconv
  obtain ⟨hholds, hshort⟩ := hup.holds_rules (s := s₀) hsup htext hprogram hsent hlen
  obtain ⟨code, hcode, hconv⟩ := Attempt.getElem?_of_forall₂ hfilters hk
  have hsize := length_of_rules hcode
  refine filter_ends (convert_registers hconv) ?_ (holdsAt_rule hholds hcode) hn hrst hq hr1 hfit
    hpacket hzero
  intro f hpc hmem
  refine returns_of_cleared hconv hpc fun f' hpc' ha hx hmem' => ?_
  exact convert_returns_cleared hconv (by omega) (by omega) hne hwrap hv hpc'
    ⟨ha, hx, hmem'.trans hmem⟩

/-- `ret #0`, converted, and the ARP filter behind it. -/
def twoRules : List (List Insn) :=
  [init ++ [⟨ebpfOpMovImm, regA, 0, 0, 0⟩, exit], arpProgram]

/-- The words of the two filters, one at every edge. -/
def delivering (t : Nat) : Inputs :=
  { Inputs.still false with
    vebpfProgAddrIn := BitVec.ofNat 10 t
    vebpfProgDataIn := ((memoryWords twoRules)[t]?).getD 0
    vebpfProgWriteEnableIn := true }

theorem deployed_arp :
    ∃ regs mem, Ends (fun _ => Inputs.still true)
        (run (fun _ => Inputs.selecting 7) (run delivering (zero (fun _ => 0) arpPacket) 18) 3)
        false regs mem
      ∧ regs.read 0 = 0xffffffff ∧ HoldsBytes mem 0 arpBytes := by
  have hfilters : List.Forall₂ (fun insns code => convert true insns = .ok code)
      [[⟨0x06, 0, 0, 0⟩], arpFilter] twoRules := .cons rfl (.cons rfl .nil)
  obtain ⟨sent, hsent, hload⟩ := programLoader_uploadFrom (hexWords twoRules) 0
  have hup : Delivers delivering 18 (programLoader sent) := by
    rw [hload]
    exact ⟨rfl, fun _ _ => rfl⟩
  have hdelivered : (run delivering (zero (fun _ => 0) arpPacket) 18).dataMem.Idle arpPacket :=
    idle_of_resets _ (by omega) fun t _ =>
      ⟨Inputs.still_resetNInt false, Inputs.still_csrCtl1 false⟩
  have hmem : ((run (fun _ => Inputs.selecting 7)
      (run delivering (zero (fun _ => 0) arpPacket) 18) 3).step (Inputs.still true)).dataMem.mem
        = arpPacket := by
    refine first_data (HeldReset.released (heldReset_selecting 7 3 _) (by omega))
      (Inputs.still_resetNInt true) ?_
    have hidle := idle_of_resets (run delivering (zero (fun _ => 0) arpPacket) 18)
      (show 1 ≤ 3 by omega) fun t _ => ⟨Inputs.selecting_resetNInt 7, rfl⟩
    rwa [hdelivered.holds] at hidle
  refine deployed (k := 1) (p := 0) hfilters (combinedCompile_assemble nofun)
    (readProgram_printWord _) hsent hup (by decide) rfl nofun nofun decides_arp (Nat.le_refl 3)
    (fun _ _ => Inputs.selecting_resets 7)
    (fun _ => ⟨Inputs.still_running, Inputs.still_csrCtl1 true⟩) rfl (by decide) ?_ ?_
  · rw [hmem]
    exact holdsBytes_arp
  · rw [hmem]
    exact fun _ => arpPacket_zero

end Sys

end VeBpf
