import VeBpf.Proof.Runs
import VeBpf.Proof.Sequencing

/-!
# Loads and stores

The data memory as the program sees it: 2048 bytes, little-endian, addresses
modulo 2048. What an instruction does to it is read off its word and registers
alone; the data memory of a run is what the stores executed so far make of the
bytes it started with.
-/

namespace VeBpf

open ByteMem

/-! ## What an instruction stores -/

namespace Execution

/-- The data address `regs[base] + offset`, with the offset signed. -/
def dataAddress (e : Execution) (base : BitVec 4) : BitVec 11 :=
  BitVec.ofInt 11 ((e.regs.read base).toNat + (offsetOf e.word).toInt)

/-- For a store: how many bytes it stores, and the word whose low bytes they are. -/
def stored (e : Execution) : Option (Nat × BitVec 64) :=
  let op := opcodeOf e.word
  let imm := (immediateOf e.word).setWidth 64
  let src := e.regs.read (srcOf e.word)
  if op = ebpfOpStb then some (1, imm)
  else if op = ebpfOpSth then some (2, imm)
  else if op = ebpfOpStw then some (4, imm)
  else if op = ebpfOpStdw then some (8, imm)
  else if op = ebpfOpStxb then some (1, src)
  else if op = ebpfOpStxh then some (2, src)
  else if op = ebpfOpStxw then some (4, src)
  else if op = ebpfOpStxdw then some (8, src)
  else none

/-- The data bytes after the instruction. -/
def dataAfter (e : Execution) (mem : BitVec 11 → BitVec 8) : BitVec 11 → BitVec 8 :=
  match e.stored with
  | some (n, v) => storeLE mem (e.dataAddress (dstOf e.word)) v n
  | none => mem

/-- An instruction of another class stores nothing. -/
theorem stored_none {e : Execution} {cls : BitVec 8} (hcls : opclassOf (opcodeOf e.word) = cls)
    (hst : cls ≠ opcSt) (hstx : cls ≠ opcStx) : e.stored = none := by
  subst hcls
  have h : ∀ o, opclassOf o = opcSt ∨ opclassOf o = opcStx → ¬ opcodeOf e.word = o := by
    rintro o ho rfl
    rcases ho with ho | ho
    · exact hst ho
    · exact hstx ho
  simp only [stored, h ebpfOpStb (by decide), h ebpfOpSth (by decide), h ebpfOpStw (by decide),
    h ebpfOpStdw (by decide), h ebpfOpStxb (by decide), h ebpfOpStxh (by decide),
    h ebpfOpStxw (by decide), h ebpfOpStxdw (by decide), if_false]

end Execution

/-! ## The machine does what the instruction says -/

namespace Machine

variable (m : Machine) (w : BitVec 64)

/-- The instruction that `w` is on this machine. -/
def execution : Execution := ⟨m.ip, w, m.regs, m.mem⟩

/-- **A step of the machine** starts no instruction and leaves the data bytes and the store alone,
or carries out the one that it starts. -/
theorem exec_cases :
    (m.eventOf w = [] ∧ (m.exec w).mem = m.mem ∧ (m.exec w).store = m.store)
    ∨ (m.eventOf w = [m.execution w] ∧ m.exec w = m.dispatch w) := by
  cases hh : m.halt with
  | true =>
      rw [exec_of_halt hh]
      exact Or.inl ⟨event_nil (Or.inl hh), rfl, rfl⟩
  | false =>
      cases hrej : m.rejects w with
      | true =>
          rw [exec_of_rejects hh hrej]
          exact Or.inl ⟨event_nil (Or.inr hrej), rfl, rfl⟩
      | false =>
          cases hu : m.upper with
          | some d =>
              -- the second word of an `LDDW` starts nothing
              rw [exec_of_upper hh hrej hu]
              exact Or.inl ⟨by simp [eventOf, hu], rfl, rfl⟩
          | none =>
              refine Or.inr ⟨?_, exec_of_accepted hh hrej hu⟩
              simp [eventOf, execution, hh, hrej, hu]

/-- The 64-bit sum of the source, cut to eleven bits, is the signed sum modulo 2048. -/
theorem dataAddress_eq (base : BitVec 64) (offset : BitVec 16) :
    dataAddress base offset = BitVec.ofInt 11 (base.toNat + offset.toInt) := by
  apply BitVec.eq_of_toNat_eq
  unfold dataAddress
  have hoff := offset.isLt
  rw [BitVec.toNat_setWidth, BitVec.toNat_add, BitVec.toNat_setWidth, BitVec.toNat_ofInt,
    BitVec.toInt_eq_toNat_cond]
  split_ifs <;> omega

/-- An arm of the source and an entry of `stored` store the same bytes. -/
inductive SameStore : Option (BitVec 4 × BitVec 64) → Option (Nat × BitVec 64) → Prop
  | none : SameStore none none
  | some {ww : BitVec 4} {v x : BitVec 64} (h : ∀ (mem : BitVec 11 → BitVec 8) p,
      storeLE mem p v ww.toNat = storeLE mem p x ww.toNat) :
      SameStore (some (ww, v)) (some (ww.toNat, x))

theorem storeTo_mem {arm : Option (BitVec 4 × BitVec 64)}
    (h : SameStore arm (m.execution w).stored) :
    (m.storeTo w arm).mem = (m.execution w).dataAfter m.mem := by
  have hadr : (m.execution w).dataAddress (dstOf w) = m.storeAddress w :=
    (dataAddress_eq _ _).symm
  unfold Execution.dataAfter
  generalize (m.execution w).stored = spec at h
  cases h with
  | none => rfl
  | some h =>
      show storeLE m.mem (m.storeAddress w) _ _
        = storeLE m.mem ((m.execution w).dataAddress (dstOf w)) _ _
      rw [hadr, h]

theorem sameStore_st (hcls : opclassOf (opcodeOf w) = opcSt) :
    SameStore (stArm (opcodeOf w) (immediateOf w)) (m.execution w).stored := by
  have hne : ∀ o, opclassOf o = opcStx → ¬ opcodeOf w = o := by
    rintro o ho heq
    rw [← heq, hcls] at ho
    exact absurd ho (by decide)
  unfold Execution.stored stArm
  dsimp only [execution]
  simp only [hne ebpfOpStxb (by decide), hne ebpfOpStxh (by decide),
    hne ebpfOpStxw (by decide), hne ebpfOpStxdw (by decide), if_false]
  split_ifs
  · exact SameStore.some fun mem p => storeLE_extract mem p _ (by decide)
  · exact SameStore.some fun mem p => storeLE_extract mem p _ (by decide)
  · exact SameStore.some fun mem p => storeLE_extract mem p _ (by decide)
  · exact SameStore.some fun mem p => rfl
  · exact SameStore.none

theorem sameStore_stx (hcls : opclassOf (opcodeOf w) = opcStx) :
    SameStore (stxArm (opcodeOf w) (m.regs.read (srcOf w))) (m.execution w).stored := by
  have hne : ∀ o, opclassOf o = opcSt → ¬ opcodeOf w = o := by
    rintro o ho heq
    rw [← heq, hcls] at ho
    exact absurd ho (by decide)
  have hlow : ∀ (k : Nat) (ww : BitVec 4), 8 * ww.toNat ≤ k →
      SameStore (some (ww, ((m.regs.read (srcOf w)).extractLsb' 0 k).setWidth 64))
        (some (ww.toNat, m.regs.read (srcOf w))) := by
    intro k ww hk
    refine SameStore.some ?_
    intro mem p
    rw [storeLE_extract mem p _ hk, BitVec.setWidth_eq]
  unfold Execution.stored stxArm
  dsimp only [execution]
  simp only [hne ebpfOpStb (by decide), hne ebpfOpSth (by decide),
    hne ebpfOpStw (by decide), hne ebpfOpStdw (by decide), if_false]
  split_ifs
  · exact hlow 8 1 (by decide)
  · exact hlow 16 2 (by decide)
  · exact hlow 32 4 (by decide)
  · exact SameStore.some fun mem p => rfl
  · exact SameStore.none

/-- **An instruction changes the data bytes that it stores and no others.** -/
theorem dispatch_mem : (m.dispatch w).mem = (m.execution w).dataAfter m.mem := by
  by_cases hst : opclassOf (opcodeOf w) = opcSt
  · rw [dispatch_st hst, storeTo_mem m w (sameStore_st m w hst)]
  by_cases hstx : opclassOf (opcodeOf w) = opcStx
  · rw [dispatch_stx hstx, storeTo_mem m w (sameStore_stx m w hstx)]
  have hnone : (m.execution w).stored = none := Execution.stored_none rfl hst hstx
  unfold Execution.dataAfter
  rw [hnone]
  have ho := dispatch_outcome m w
  generalize m.dispatch w = m' at ho
  cases ho with
  | stop _ _ mem => exact mem
  | set v => rfl
  | lower op => rfl
  | store mem cls =>
      rcases cls with hc | hc
      · exact absurd hc hst
      · exact absurd hc hstx
  | call op => rfl
  | fall cls => rfl
  | jump cls => rfl

/-- A store leaves every register alone. -/
theorem dispatch_regs_store {n : Nat} {v : BitVec 64}
    (h : (m.execution w).stored = some (n, v)) : (m.dispatch w).regs = m.regs := by
  by_cases hst : opclassOf (opcodeOf w) = opcSt
  · rw [dispatch_st hst]
    rcases storeTo_cases m w (stArm (opcodeOf w) (immediateOf w)) with h | ⟨mem, h⟩ <;>
      rw [h] <;> rfl
  by_cases hstx : opclassOf (opcodeOf w) = opcStx
  · rw [dispatch_stx hstx]
    rcases storeTo_cases m w (stxArm (opcodeOf w) (m.regs.read (srcOf w))) with h | ⟨mem, h⟩ <;>
      rw [h] <;> rfl
  rw [Execution.stored_none (e := m.execution w) rfl hst hstx] at h
  cases h

/-- A load reads the bytes at its address, zero-extended, into `regs[dst]`. -/
theorem dispatch_regs_load {n : Nat} (h : loadWidth (opcodeOf w) = some n) :
    (m.dispatch w).regs = m.regs.write (dstOf w)
      (loadLE 64 m.mem ((m.execution w).dataAddress (srcOf w)) n) := by
  rw [dispatch_load h]
  show m.regs.write _ (loadLE 64 m.mem (dataAddress _ _) n) = _
  rw [dataAddress_eq]
  rfl

end Machine

/-! ## The data memory of a run -/

namespace CoreMachine

variable {pm : Program}

theorem mem_next (c : CoreMachine) :
    (c.next pm).machine.mem = (c.event pm).foldl (fun d e => e.dataAfter d) c.machine.mem := by
  show (c.machine.exec (c.word pm)).mem = _
  unfold event
  generalize c.word pm = w
  generalize c.machine = m
  rcases m.exec_cases w with ⟨hnil, hmem, -⟩ | ⟨hone, hexec⟩
  · rw [hnil, hmem]
    rfl
  · rw [hone, hexec, Machine.dispatch_mem]
    rfl

/-- **The data bytes are what the executed stores make of them.** -/
theorem mem_iterate (c : CoreMachine) (k : Nat) :
    ((next pm)^[k] c).machine.mem
      = (log pm c k).foldl (fun d e => e.dataAfter d) c.machine.mem := by
  induction k with
  | zero => rfl
  | succ k ih => rw [Function.iterate_succ_apply', mem_next, ih, log, List.foldl_append]

end CoreMachine

section Decoded

variable {s : Sys} {pm : Program} {k : Watch} {log : List Execution}
  {x : CoreMachine × List Execution} {hi lo : Nat}

/-- The instruction that begins is the machine's. -/
theorem Linked.execution_eq (h : Linked pm s k log x .decode hi lo) :
    s.execution = x.1.machine.execution s.cpu.instruction := by
  unfold Sys.execution Machine.execution
  rw [h.phase.ipNext.ip, (h.phase.holds (by simp)).regs, h.phase.rest_of_decode.data.ram.holds]

/-- If the checks accept its word, the machine carries it out. -/
theorem Linked.machine_dispatch (h : Linked pm s k log x .decode hi lo) (hup : k.upper = false)
    (hacc : s.cpu.rejects = false) :
    (x.1.next pm).machine = x.1.machine.dispatch s.cpu.instruction := by
  have hholds := h.phase.holds (by simp)
  rw [h.machine_next, Machine.exec_of_accepted hholds.running (hholds.rejects ▸ hacc)
    (h.upper_none (by simp) hup)]

end Decoded

namespace Sys

variable {inp : Nat → Inputs} {s : Sys} {t : Nat}

/-- Where an instruction begins, and after the halt, the data bytes are those of the core machine
and all that has been executed is in its log. -/
theorem mem_of_begun (hs : Released s) (hrun : ∀ t, (inp t).Running)
    (ht : (watch inp s t).firstDecode (run inp s t) = true ∨ (run inp s t).cpu.halt = true) :
    (run inp s t).dataMem.mem
      = (executed inp s t).foldl (fun d e => e.dataAfter d) (s.step (inp 0)).dataMem.mem := by
  obtain ⟨pos, his, los, htrack⟩ := (Stutter.Follows.exists_track (follows hs hrun)
    (Or.inl ⟨rfl, rfl, rfl, rfl⟩))
  rcases htrack.at_pos t with ⟨rfl, _⟩ | ⟨_, st, h⟩
  · rcases ht with ht | ht
    · cases ht
    · exact absurd (hs.halt.symm.trans ht) (by simp)
  · have hst : st = .decode ∨ st = .stopped := by
      rcases ht with ht | ht
      · rw [Watch.firstDecode, h.fresh] at ht
        obtain ⟨hd, -⟩ := Bool.and_eq_true_iff.mp ht
        exact Or.inl (of_decide_eq_true hd)
      · exact Or.inr (h.phase.halt_iff.mp ht)
    rw [CoreMachine.logNext_iterate] at h
    -- in neither stage is an instruction under way, so the two logs are the same
    have hlog : executed inp s t = CoreMachine.log s.pgm.mem (s.start inp) (pos t) := by
      rw [h.log, if_neg (by rcases hst with rfl | rfl <;> simp), List.append_nil]
    rw [hlog]
    refine Eq.trans ?_ (CoreMachine.mem_iterate (s.start inp) (pos t))
    rcases hst with rfl | rfl
    · exact h.phase.rest_of_decode.data.ram.holds
    · exact h.phase.stopped_inv.ram.holds

/-- **Loads and stores.** In a run with the data memory in the core's hands the data bytes are, at
every instruction and after the halt, what the stores executed so far make of those at the start. A
store changes no register. A load changes no data byte, and no register but its destination, which
gets the bytes at its address. -/
theorem loads_and_stores (s₀ : Sys) (i₀ : Inputs) (hreset : i₀.resetNInt = false)
    (hrun : ∀ t, (inp t).Quiet) :
    (∀ t, ((watch inp (s₀.step i₀) t).firstDecode (run inp (s₀.step i₀) t) = true
        ∨ (run inp (s₀.step i₀) t).cpu.halt = true) →
      (run inp (s₀.step i₀) t).dataMem.mem = (executed inp (s₀.step i₀) t).foldl
        (fun d e => e.dataAfter d) ((s₀.step i₀).step (inp 0)).dataMem.mem)
    ∧ ∀ t, (watch inp (s₀.step i₀) t).firstDecode (run inp (s₀.step i₀) t) = true →
      (run inp (s₀.step i₀) t).cpu.rejects = false →
      ∃ u, NextBegin inp (s₀.step i₀) t u
        ∧ (∀ n v, (run inp (s₀.step i₀) t).execution.stored = some (n, v) →
          (run inp (s₀.step i₀) u).cpu.regs = (run inp (s₀.step i₀) t).cpu.regs
          ∧ (run inp (s₀.step i₀) u).dataMem.mem = storeLE (run inp (s₀.step i₀) t).dataMem.mem
            ((run inp (s₀.step i₀) t).execution.dataAddress
              (dstOf (run inp (s₀.step i₀) t).cpu.instruction)) v n)
        ∧ ∀ n, loadWidth (opcodeOf (run inp (s₀.step i₀) t).cpu.instruction) = some n →
          (run inp (s₀.step i₀) u).cpu.regs = (run inp (s₀.step i₀) t).cpu.regs.write
            (dstOf (run inp (s₀.step i₀) t).cpu.instruction)
            (loadLE 64 (run inp (s₀.step i₀) t).dataMem.mem
              ((run inp (s₀.step i₀) t).execution.dataAddress
                (srcOf (run inp (s₀.step i₀) t).cpu.instruction)) n)
          ∧ (run inp (s₀.step i₀) u).dataMem.mem = (run inp (s₀.step i₀) t).dataMem.mem := by
  have hrel : Released (s₀.step i₀) := released_of_reset hreset
  generalize s₀.step i₀ = s at hrel ⊢
  refine ⟨fun t ht => mem_of_begun hrel (fun t => (hrun t).toRunning) ht, ?_⟩
  intro t hfirst hacc
  obtain ⟨x, hi, lo, h, hup⟩ :=
    here_of_firstDecode hrel (fun t => (hrun t).toRunning) hfirst
  by_cases hop : opcodeOf (run inp s t).cpu.instruction = ebpfOpLddw
  · -- an `LDDW` is neither a load nor a store of data bytes
    obtain ⟨u, hnext, -⟩ := next_of_lddw hrun h hup hop
    have hcls : opclassOf (opcodeOf (run inp s t).cpu.instruction) = opcLd := by rw [hop]; decide
    have hnone : (run inp s t).execution.stored = none :=
      Execution.stored_none hcls (by decide) (by decide)
    refine ⟨u, hnext, ?_, ?_⟩
    · intro n v hst
      rw [hnone] at hst
      cases hst
    · intro n hld
      rw [hop] at hld
      cases hld
  · obtain ⟨u, hnext, hend⟩ := next_of_single hrun h hup hop
    obtain ⟨hregs, hmem, -⟩ := hend.holds
    rw [show (CoreMachine.logNext s.pgm.mem x).1 = x.1.next s.pgm.mem from rfl,
      h.machine_dispatch hup hacc] at hregs hmem
    refine ⟨u, hnext, ?_⟩
    rw [hregs, hmem, h.execution_eq, (h.phase.holds (by simp)).regs,
      h.phase.rest_of_decode.data.ram.holds]
    refine ⟨fun n v hst => ⟨Machine.dispatch_regs_store _ _ hst, ?_⟩,
      fun n hld => ⟨Machine.dispatch_regs_load _ _ hld, ?_⟩⟩
    · rw [Machine.dispatch_mem, Execution.dataAfter, hst]
      rfl
    · have hcls := Machine.opclass_of_loadWidth hld
      have hnone : (x.1.machine.execution (run inp s t).cpu.instruction).stored = none :=
        Execution.stored_none hcls (by decide) (by decide)
      rw [Machine.dispatch_mem, Execution.dataAfter, hnone]

/-- A store of eight bytes of an immediate, and `EXIT`s. -/
def storeDouble : Program := fun a =>
  if a = 0 then 0x7a00000011223344#64 else 0x9500000000000000#64

/-- The design at the end of a reset, about to run it. -/
def storingDouble : Sys := (zero storeDouble fun _ => 0).step (Inputs.still false)

/-- `STDW` stores too. -/
theorem stdw_stores :
    (watch (fun _ => Inputs.still true) storingDouble 2).firstDecode
      (run (fun _ => Inputs.still true) storingDouble 2) = true
    ∧ opcodeOf (run (fun _ => Inputs.still true) storingDouble 2).cpu.instruction ∉
      [ebpfOpLdxb, ebpfOpLdxh, ebpfOpLdxw, ebpfOpLdxdw, ebpfOpStb, ebpfOpSth, ebpfOpStw,
        ebpfOpStxb, ebpfOpStxh, ebpfOpStxw, ebpfOpStxdw]
    ∧ NextBegin (fun _ => Inputs.still true) storingDouble 2 16
    ∧ (run (fun _ => Inputs.still true) storingDouble 16).dataMem.mem 0
      ≠ (run (fun _ => Inputs.still true) storingDouble 2).dataMem.mem 0 := by
  refine ⟨by decide, by decide, ⟨by omega, ?_, by decide⟩, by decide⟩
  have hquiet : ∀ v, v < 16 → 2 < v →
      (watch (fun _ => Inputs.still true) storingDouble v).firstDecode
        (run (fun _ => Inputs.still true) storingDouble v) = false
      ∧ (run (fun _ => Inputs.still true) storingDouble v).cpu.halt = false := by
    decide
  exact fun v h1 h2 => hquiet v h2 h1

theorem loads_and_stores_storingDouble :
    (run (fun _ => Inputs.still true) storingDouble 16).dataMem.mem
      = (executed (fun _ => Inputs.still true) storingDouble 16).foldl (fun d e => e.dataAfter d)
          (storingDouble.step (Inputs.still true)).dataMem.mem :=
  (loads_and_stores (zero storeDouble fun _ => 0) (Inputs.still false)
    (Inputs.still_resetNInt false)
    (fun _ => ⟨Inputs.still_running, Inputs.still_csrCtl1 true⟩)).1 16 (Or.inl (by decide))

end Sys

end VeBpf
