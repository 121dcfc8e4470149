import VeBpf.Lib.Halves
import VeBpf.Proof.Instructions

/-!
# `LDDW`

The one instruction of two words. After the first the core keeps its opcode and
destination, and fetches the second word twice, as it does every word: once into
`STATE_OP_FETCH_DELAY`, where the checks see it for the first time, and once more
into `STATE_DECODE`, where it is joined. A second word that is not an upper half is
looked for with a bitwise AND of the two opcodes, which misses some.
-/

namespace VeBpf

open Halves

variable {m : Machine} {s : Sys} {inp : Nat → Inputs} {i : Inputs} {st : Stage} {hi lo u : Nat}

/-! ## From the first word to the second -/

/-- **The second word of an `LDDW`** stops the core if the checks refuse it, and else is joined to
the first. -/
theorem Phase.upper_step {d : BitVec 4} (h : Phase m s .decode hi lo) (hr : i.resetNInt = true)
    (hup : m.upper = some d) :
    (m.rejects s.cpu.instruction = true ∧ Phase m.fail (s.step i) .stopped 0 0)
    ∨ (m.rejects s.cpu.instruction = false ∧ ∃ hi' lo',
      Phase (m.joinUpper d s.cpu.instruction) (s.step i) .delay hi' lo') := by
  cases h with
  | decode rest hs hon =>
      cases hrej : m.rejects s.cpu.instruction with
      | true =>
          have hstop := step_rejects rest hr hrej
          rw [Machine.exec_of_rejects rest.holds.running hrej] at hstop
          exact Or.inl ⟨rfl, hstop⟩
      | false =>
          have hexec := Machine.exec_of_upper rest.holds.running hrej hup
          have hcpu := step_cpu_upper (i := i) rest.holds hs hr hup hrej
          have hstate : (s.step i).cpu.stateNext = .opFetchDelay := by rw [hcpu]; rfl
          have hmove : Move m s (s.step i) True _ _ _ := step_upper rest hs hon hr hup hrej
          cases hmove with
          | stay _ _ phase =>
              have hnone := phase.busy.1.upper
              rw [hup] at hnone
              cases hnone
          | toDelay hi' lo' phase =>
              rw [hexec] at phase
              exact Or.inr ⟨rfl, hi', lo', phase⟩
          | toFetch _ _ phase => exact absurd (phase.stateNext.symm.trans hstate) (by simp)
          | stop phase =>
              have hhalt := phase.stopped_inv.halted
              rw [hexec] at hhalt
              exact absurd (rest.holds.running.symm.trans hhalt) (by simp)

namespace Sys

/-- The machine between the two words of an `LDDW`. -/
def lowered (s : Sys) : Machine :=
  { s.machine with upper := some (dstOf s.cpu.instruction) }.set (dstOf s.cpu.instruction)
    ((immediateOf s.cpu.instruction).setWidth 64)

/-- The first word of an `LDDW` is carried out in one cycle. -/
theorem Begins.lower_step (h : s.Begins) (hr : i.resetNInt = true)
    (hreg : badRegisters s.cpu.instruction = false)
    (hop : opcodeOf s.cpu.instruction = ebpfOpLddw) :
    ∃ hi lo, Phase s.lowered (s.step i) .delay hi lo
      ∧ (s.step i).cpu.instruction = s.pgm.dataOut := by
  have hcls : opclassOf (opcodeOf s.cpu.instruction) = opcLd := by rw [hop]; decide
  have hexec : s.machine.exec s.cpu.instruction = s.lowered := by
    rw [Machine.exec_of_accepted rfl (h.accepted hreg).accepted rfl, Machine.dispatch_ld hcls,
      if_pos hop]
    rfl
  have hmove : Move s.machine s (s.step i) True .decode 68 10 := by
    cases h.phase with
    | decode rest hs hon => exact step_decode rest hs hon hr
  cases hmove with
  | stay _ _ phase word =>
      have hne := phase.busy.2
      rw [show (s.step i).cpu.instruction = s.cpu.instruction from word] at hne
      exact absurd hcls hne
  | toDelay hi' lo' phase word =>
      rw [hexec] at phase
      exact ⟨hi', lo', phase, word⟩
  | toFetch _ _ _ _ _ accepted =>
      -- an `LDDW` is no upper half
      rw [hexec] at accepted
      simp only [lowered, Machine.rejects, Machine.set_upper, hop, Bool.or_eq_false_iff] at accepted
      exact absurd accepted.2 (by decide)
  | stop phase =>
      have hhalt := phase.stopped_inv.halted
      rw [hexec] at hhalt
      cases hhalt

/-! ## What an `LDDW` is said to do -/

/-- The word after the `LDDW` as the core has fetched it, and as it fetches it once more. -/
def upperWord (inp : Nat → Inputs) (s : Sys) (again : Bool) : BitVec 64 :=
  if again then (s.step (inp 0)).pgm.dataOut else s.pgm.dataOut

/-- The core fetches the word at the next address. -/
theorem Begins.upperWord_again (h : s.Begins) (hprog : (inp 0).vebpfProgResetIn = false) :
    s.upperWord inp true = s.pgm.mem ((s.cpu.ip + 1).setWidth 9) := by
  have hip : s.cpu.ipNext = s.cpu.ip + 1 := h.phase.ipNext.ipNext
  rw [← hip, upperWord, if_pos rfl, Sys.step, Ram64V3.step, hprog]
  rfl

/-- The word after it is taken as the upper half: the destination holds both immediates, the word
after that is fetched next, nothing else changes and nothing begins on the way. -/
def Joins (inp : Nat → Inputs) (s : Sys) : Prop :=
  ∃ u, (run inp s u).cpu.stateNext = .opFetchDelay ∧ (run inp s u).cpu.halt = false
    ∧ (run inp s u).cpu.ip = s.cpu.ip + 2
    ∧ (run inp s u).cpu.regs = s.cpu.regs.write (dstOf s.cpu.instruction)
        (BitVec.ofNat 64 ((immediateOf (s.upperWord inp true)).toNat * 2 ^ 32
          + (immediateOf s.cpu.instruction).toNat))
    ∧ (run inp s u).dataMem.mem = s.dataMem.mem
    ∧ (∀ v, v ≤ u → (run inp s v).cpu.error = false)
    ∧ ∀ v, 0 < v → v ≤ u → ¬ (run inp s v).Begins

/-- The core halts with an error while it waits for the upper half, and nothing begins any more:
the word after the `LDDW` is neither joined nor executed. -/
def Refuses (inp : Nat → Inputs) (s : Sys) : Prop :=
  ∃ u, (run inp s u).cpu.halt = true ∧ (run inp s u).cpu.error = true
    ∧ (∀ v, 0 < v → v < u → (run inp s v).cpu.keepOp = ebpfOpLddw)
    ∧ (run inp s u).cpu.regs = s.cpu.regs.write (dstOf s.cpu.instruction)
        ((immediateOf s.cpu.instruction).setWidth 64)
    ∧ (run inp s u).dataMem.mem = s.dataMem.mem
    ∧ ∀ v, 0 < v → ¬ (run inp s v).Begins

/-! ## What an `LDDW` does -/

/-- No instruction begins while the core waits for an upper half. -/
theorem not_begins_of_upper (h : Phase m s st hi lo) (hst : st ≠ .stopped)
    (hup : m.upper.isSome = true) : ¬ s.Begins := by
  intro hb
  have hkeep := (h.holds hst).keepOp
  rw [if_pos hup, hb.lower] at hkeep
  exact absurd hkeep (by decide)

/-- A core that stops where it waits for the upper half has refused it. -/
theorem refuses_of_stopped (hr : ∀ t, (inp t).resetNInt = true)
    (hwait : ∀ v, 0 < v → v < u →
      ∃ st hi lo, st ≠ .stopped ∧ Phase s.lowered (run inp s v) st hi lo)
    (hstop : Stopped s.lowered.fail (run inp s u)) : s.Refuses inp := by
  refine ⟨u, hstop.halt, hstop.error, ?_, hstop.regs, hstop.ram.holds, ?_⟩
  · intro v h0 hv
    obtain ⟨st, hi, lo, hst, hp⟩ := hwait v h0 hv
    exact (hp.holds hst).keepOp
  · intro v h0
    rcases Nat.lt_or_ge v u with hv | hv
    · obtain ⟨st, hi, lo, hst, hp⟩ := hwait v h0 hv
      exact not_begins_of_upper hp hst rfl
    · obtain ⟨x, rfl⟩ := Nat.exists_eq_add_of_le hv
      rw [run_add]
      exact hstop.not_begins (fun t => hr (u + t)) x

/-- The two halves, joined. -/
theorem lowered_join (hreg : badRegisters s.cpu.instruction = false) (w : BitVec 64) :
    (s.lowered.joinUpper (dstOf s.cpu.instruction) w).regs
      = s.cpu.regs.write (dstOf s.cpu.instruction) (BitVec.ofNat 64
          ((immediateOf w).toNat * 2 ^ 32 + (immediateOf s.cpu.instruction).toNat)) := by
  have hdst : (dstOf s.cpu.instruction).toNat < maxRegs := by
    rw [badRegisters, Bool.or_eq_false_iff, decide_eq_false_iff_not,
      decide_eq_false_iff_not] at hreg
    omega
  have hregs : s.lowered.regs = s.cpu.regs.write (dstOf s.cpu.instruction)
      ((immediateOf s.cpu.instruction).setWidth 64) := rfl
  have hlow : ((immediateOf s.cpu.instruction).setWidth 64).extractLsb' 0 32
      = immediateOf s.cpu.instruction := by
    rw [lower_extract, lower_zeroExtend]
  have hvalue : (immediateOf w ++ immediateOf s.cpu.instruction : BitVec 64) = BitVec.ofNat 64
      ((immediateOf w).toNat * 2 ^ 32 + (immediateOf s.cpu.instruction).toNat) := by
    rw [← toNat_join, BitVec.ofNat_toNat, BitVec.setWidth_eq]
  show s.lowered.regs.write _ (immediateOf w ++ (s.lowered.regs.read _).extractLsb' 0 32) = _
  rw [hregs, Regs.read_write_self _ _ _ hdst, hlow, hvalue, Regs.write_write]

/-- A core that has joined the two halves has done what an `LDDW` is for. -/
theorem Begins.joins_of_joined {hi₁ lo₁ hi₂ lo₂ hi₃ lo₃ : Nat} (h : s.Begins)
    (hreg : badRegisters s.cpu.instruction = false)
    (h1 : Phase s.lowered (run inp s 1) .delay hi₁ lo₁)
    (h2 : Phase s.lowered (run inp s 2) .decode hi₂ lo₂)
    (h3 : Phase (s.lowered.joinUpper (dstOf s.cpu.instruction) (s.upperWord inp true))
      (run inp s 3) .delay hi₃ lo₃) : s.Joins inp := by
  have hshow := h3.shows (by simp)
  have hip : (run inp s 3).cpu.ip = s.cpu.ip + 1 + 1 := h3.ipNext.ip
  refine ⟨3, h3.stateNext, hshow.halt, ?_, hshow.regs.trans (lowered_join hreg _), hshow.mem,
    ?_, ?_⟩
  · rw [hip, BitVec.add_assoc]
    rfl
  · intro v hv
    obtain rfl | rfl | rfl | rfl : v = 0 ∨ v = 1 ∨ v = 2 ∨ v = 3 := by omega
    · exact h.rest.holds.error
    · exact (h1.holds (by simp)).error
    · exact (h2.holds (by simp)).error
    · exact (h3.holds (by simp)).error
  · intro v h0 hv
    obtain rfl | rfl | rfl : v = 1 ∨ v = 2 ∨ v = 3 := by omega
    · exact not_begins_of_upper h1 (by simp) rfl
    · exact not_begins_of_upper h2 (by simp) rfl
    · intro hb
      exact absurd (h3.stateNext.symm.trans hb.state) (by simp)

/-- **What comes of an `LDDW`**: the core refuses one of the two words that it fetches for the upper
half, or joins the second. -/
theorem Begins.lddw_outcome (h : s.Begins) (hr : ∀ t, (inp t).resetNInt = true)
    (hreg : badRegisters s.cpu.instruction = false)
    (hop : opcodeOf s.cpu.instruction = ebpfOpLddw) :
    ((∃ again, s.lowered.rejects (s.upperWord inp again) = true) ∧ s.Refuses inp)
    ∨ ((∀ again, s.lowered.rejects (s.upperWord inp again) = false) ∧ s.Joins inp
      ∧ ¬ s.Refuses inp) := by
  obtain ⟨hi₁, lo₁, h1, hfirst⟩ := h.lower_step (hr 0) hreg hop
  change Phase s.lowered (run inp s 1) .delay hi₁ lo₁ at h1
  have hword1 : (run inp s 1).cpu.instruction = s.upperWord inp false := hfirst
  have hwait1 : ∀ v, 0 < v → v < 2 →
      ∃ st hi lo, st ≠ .stopped ∧ Phase s.lowered (run inp s v) st hi lo := by
    intro v h0 hv
    obtain rfl : v = 1 := by omega
    exact ⟨_, _, _, by simp, h1⟩
  -- the first of the two looks at the second word
  rcases h1.delay_step (i := inp 1) (hr 1) with ⟨hrej, hstop⟩ | ⟨hacc, hi₂, lo₂, h2, hsecond⟩
  · rw [hword1] at hrej
    exact Or.inl ⟨⟨false, hrej⟩, refuses_of_stopped (u := 2) hr hwait1 hstop.stopped_inv⟩
  rw [hword1] at hacc
  change Phase s.lowered (run inp s 2) .decode hi₂ lo₂ at h2
  have hword2 : (run inp s 2).cpu.instruction = s.upperWord inp true := hsecond
  rcases h2.upper_step (i := inp 2) (hr 2) rfl with ⟨hrej, hstop⟩ | ⟨hacc', hi₃, lo₃, h3⟩
  · rw [hword2] at hrej
    refine Or.inl ⟨⟨true, hrej⟩, refuses_of_stopped (u := 3) hr ?_
      hstop.stopped_inv⟩
    intro v h0 hv
    rcases Nat.lt_or_ge v 2 with hv' | hv'
    · exact hwait1 v h0 hv'
    · obtain rfl : v = 2 := by omega
      exact ⟨_, _, _, by simp, h2⟩
  · rw [hword2] at hacc' h3
    change Phase _ (run inp s 3) .delay hi₃ lo₃ at h3
    refine Or.inr ⟨?_, h.joins_of_joined hreg h1 h2 h3, ?_⟩
    · intro again
      cases again
      · exact hacc
      · exact hacc'
    · -- a halt would come too late
      rintro ⟨u, hhalt, -, hkeep, -⟩
      have hlive : ∀ {m : Machine} {st : Stage} {v hi lo : Nat}, st ≠ .stopped →
          Phase m (run inp s v) st hi lo → u ≠ v := by
        rintro m st v hi lo hst hp rfl
        exact hst (hp.halt_iff.mp hhalt)
      have h0 : u ≠ 0 := by
        rintro rfl
        exact absurd (h.running.symm.trans hhalt) (by simp)
      have hne1 := hlive (by simp) h1
      have hne2 := hlive (by simp) h2
      have hne3 := hlive (by simp) h3
      have hkept : (run inp s 3).cpu.keepOp = 0 := (h3.holds (by simp)).keepOp
      rw [hkeep 3 (by omega) (by omega)] at hkept
      exact absurd hkept (by decide)

/-- **`LDDW`.** The word after it is joined if its opcode is 0 and refused if it is not, as it
should be, exactly if its opcode is 0 or has a bit in common with that of `LDDW`. The core fetches
that word twice; if the program is written in between, either of the two may be what it refuses. -/
theorem lddw_exact (h : s.Begins) (hr : ∀ t, (inp t).resetNInt = true)
    (hreg : badRegisters s.cpu.instruction = false)
    (hop : opcodeOf s.cpu.instruction = ebpfOpLddw)
    (hsrc : ∀ again, (srcOf (s.upperWord inp again)).toNat < maxRegs) :
    ((inp 0).vebpfProgResetIn = false →
      s.upperWord inp true = s.pgm.mem ((s.cpu.ip + 1).setWidth 9))
    ∧ (((∀ again, opcodeOf (s.upperWord inp again) = 0) → s.Joins inp)
        ∧ ((∃ again, opcodeOf (s.upperWord inp again) ≠ 0) → s.Refuses inp)
      ↔ (∀ again, opcodeOf (s.upperWord inp again) = 0)
        ∨ ∃ again, ebpfOpLddw &&& opcodeOf (s.upperWord inp again) ≠ 0) := by
  have hrejects : ∀ again, s.lowered.rejects (s.upperWord inp again) = true
      ↔ ebpfOpLddw &&& opcodeOf (s.upperWord inp again) ≠ 0 := by
    intro again
    have hlt : ¬ maxRegs ≤ (srcOf (s.upperWord inp again)).toNat := Nat.not_le.mpr (hsrc again)
    simp [lowered, Machine.rejects, hlt]
  refine ⟨h.upperWord_again, ?_⟩
  -- the core tells the words by an AND with the opcode of `LDDW`, which is 0 for some that it
  -- should refuse
  rcases h.lddw_outcome hr hreg hop with ⟨⟨again, hrej⟩, hrefuses⟩ | ⟨hacc, hjoins, hnot⟩
  · have hand := (hrejects again).mp hrej
    refine iff_of_true ⟨?_, fun _ => hrefuses⟩ (Or.inr ⟨again, hand⟩)
    intro hzero
    rw [hzero again] at hand
    exact absurd rfl hand
  · constructor
    · rintro ⟨-, hrefuse⟩
      by_contra hcond
      rw [not_or, not_forall] at hcond
      exact hnot (hrefuse hcond.1)
    · rintro (hzero | ⟨again, hand⟩)
      · refine ⟨fun _ => hjoins, ?_⟩
        intro hother
        obtain ⟨again, hne⟩ := hother
        exact absurd (hzero again) hne
      · rw [← hrejects, hacc again] at hand
        cases hand

/-- An `LDDW r1` and the word after it. -/
def lddwBefore (w : BitVec 64) : BitVec 9 → BitVec 64 := fun a =>
  if a = 0 then 0x1801000000000001#64 else w

/-- A `JA` after an `LDDW` is taken for its upper half. -/
theorem lddw_joins_ja :
    (launched (lddwBefore 0x0500000000000002#64)).Begins
    ∧ badRegisters (launched (lddwBefore 0x0500000000000002#64)).cpu.instruction = false
    ∧ opcodeOf (launched (lddwBefore 0x0500000000000002#64)).cpu.instruction = ebpfOpLddw
    ∧ (∀ again, (launched (lddwBefore 0x0500000000000002#64)).upperWord
        (fun _ => Inputs.still true) again = 0x0500000000000002#64)
    ∧ ¬ (launched (lddwBefore 0x0500000000000002#64)).Refuses (fun _ => Inputs.still true) := by
  have hb : (launched (lddwBefore 0x0500000000000002#64)).Begins :=
    launched_begins (by decide)
  have hreg : badRegisters (launched (lddwBefore 0x0500000000000002#64)).cpu.instruction
      = false := by decide
  have hop : opcodeOf (launched (lddwBefore 0x0500000000000002#64)).cpu.instruction
      = ebpfOpLddw := by decide
  have hacc : ∀ again, (launched (lddwBefore 0x0500000000000002#64)).lowered.rejects
      ((launched (lddwBefore 0x0500000000000002#64)).upperWord (fun _ => Inputs.still true) again)
      = false := by decide
  refine ⟨hb, hreg, hop, by decide, ?_⟩
  rcases hb.lddw_outcome (fun _ => Inputs.still_resetNInt true) hreg hop with
    ⟨⟨again, hrej⟩, -⟩ | ⟨-, -, hnot⟩
  · rw [hacc again] at hrej
    cases hrej
  · exact hnot

/-- A whole `LDDW` puts its halves together. -/
theorem lddw_exact_whole :
    (launched (lddwBefore 0x000f123400000002#64)).Joins (fun _ => Inputs.still true) := by
  have hzero : ∀ again, opcodeOf ((launched (lddwBefore 0x000f123400000002#64)).upperWord
      (fun _ => Inputs.still true) again) = 0 := by decide
  exact ((lddw_exact (launched_begins (by decide))
    (fun _ => Inputs.still_resetNInt true) (by decide) (by decide) (by decide)).2.mpr
    (Or.inl hzero)).1 hzero

end Sys

end VeBpf
