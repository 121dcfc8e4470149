import VeBpf.Proof.Frames
import Mathlib.Tactic.SplitIfs

/-!
# Every clock edge moves a phase

From any phase an edge with reset released either leaves the machine where it is
and comes closer to the end of the word, or carries the word out. The proof goes
through the phases one by one; the results are put together in `Phase.step`.
-/

namespace VeBpf

open ByteMem

namespace Stage

/-- The stage after this one while the word is not finished. -/
def next : Stage → Stage
  | fetch => delay
  | delay => decode
  | decode => busy
  | busy => busy
  | stopped => stopped

/-- What `instruction` holds after an edge that does not finish the word. -/
def word (st : Stage) (s : Sys) : BitVec 64 :=
  match st with
  | fetch | delay => s.pgm.dataOut
  | _ => s.cpu.instruction

/-- The word of this stage is being carried out, not fetched. -/
def onWord (st : Stage) : Prop := st = decode ∨ st = busy

end Stage

/-- What one clock edge does. `own` says that the core owns the data memory. -/
inductive Move (m : Machine) (s s' : Sys) (own : Prop) (st : Stage) (hi lo : Nat) : Prop
  /-- The word is not finished. -/
  | stay (hi' lo' : Nat) (phase : Phase m s' st.next hi' lo')
      (word : s'.cpu.instruction = st.word s) (le : hi' ≤ hi) (lt : own → hi' + lo' < hi + lo)
  /-- The word is finished and the next one has been fetched. -/
  | toDelay (hi' lo' : Nat) (phase : Phase (m.exec s.cpu.instruction) s' .delay hi' lo')
      (word : s'.cpu.instruction = s.pgm.dataOut) (on : st.onWord)
      (ip : (m.exec s.cpu.instruction).ip = m.ip + 1)
  /-- The word is a jump and the next one is still to be fetched. -/
  | toFetch (hi' lo' : Nat) (phase : Phase (m.exec s.cpu.instruction) s' .fetch hi' lo')
      (word : s'.cpu.instruction = s.cpu.instruction) (on : st.onWord)
      (accepted : (m.exec s.cpu.instruction).rejects s.cpu.instruction = false)
  /-- The word has stopped the core, or the core had stopped before. -/
  | stop (phase : Phase (m.exec s.cpu.instruction) s' .stopped 0 0)

variable {m m' : Machine} {s : Sys} {c n : Cpu} {i : Inputs} {w : Wires}

/-! ## Common endings -/

theorem Holds.of_eq (h : Holds m c) (hh : n.halt = c.halt) (he : n.error = c.error)
    (hr : n.regs = c.regs) (hk : n.keepOp = c.keepOp) (hd : n.keepDst = c.keepDst) : Holds m n :=
  ⟨h.running, h.noError, by rw [hh, h.halt], by rw [he, h.error], by rw [hr, h.regs],
    by rw [hk, h.keepOp], fun d hm => by rw [hd]; exact h.keepDst d hm⟩

/-- A core that has just halted between two accesses. -/
theorem stopped_of (hr : i.resetNInt = true) (hhalt : m'.halt = true)
    (hmem : m'.mem = m.mem) (hstore : m'.store = m.store) (hcpu : (s.step i).cpu = n)
    (hh : n.halt = true) (he : n.error = m'.error) (hregs : n.regs = m'.regs)
    (hstb : n.dataStb = false) (hram : (s.step i).dataMem.Idle m.mem) (hcall : CallQuiet m s)
    (hcs : n.callHandlerStb = false) (h1 : n.callHandlerR1 = s.cpu.callHandlerR1)
    (h2 : n.callHandlerR2 = s.cpu.callHandlerR2) : Phase m' (s.step i) .stopped 0 0 := by
  subst hcpu
  exact Phase.stopped ⟨hhalt, hh, he, hregs, hstb, hmem ▸ hram,
    (hcall.step hr hcs h1 h2).congr hstore⟩

/-- A word that fails stops the core on the registers `r`. -/
theorem stop_of_fail {own : Prop} {st : Stage} {hi lo : Nat} {r : Regs} (hr : i.resetNInt = true)
    (hexec : m.exec s.cpu.instruction = { m with regs := r }.fail)
    (hcpu : (s.step i).cpu = n) (hh : n.halt = true) (he : n.error = true) (hregs : n.regs = r)
    (hstb : n.dataStb = false) (hram : (s.step i).dataMem.Idle m.mem) (hcall : CallQuiet m s)
    (hcs : n.callHandlerStb = false) (h1 : n.callHandlerR1 = s.cpu.callHandlerR1)
    (h2 : n.callHandlerR2 = s.cpu.callHandlerR2) : Move m s (s.step i) own st hi lo := by
  refine Move.stop ?_
  rw [hexec]
  exact stopped_of (m := m) hr rfl rfl rfl hcpu hh he hregs hstb hram hcall hcs h1 h2

/-- A word whose last edge loads the prefetched word. -/
theorem finish {own : Prop} {st : Stage} {hi lo : Nat} {temp : CpuState} (hst : st.onWord)
    (hon : OnWord m s.cpu) (hexec : m.exec s.cpu.instruction = m') (hip : m'.ip = m.ip + 1)
    (hcpu : (s.step i).cpu = n.advance (s.wires i) temp) (htemp : temp = .decode)
    (hn : n.ipNext = s.cpu.ipNext) (hh : Holds m' n) (hdata : DataQuiet m' (s.step i))
    (hdiv : DivQuiet (s.step i)) (hshift : ShiftQuiet (s.step i))
    (hcall : CallQuiet m' (s.step i)) : Move m s (s.step i) own st hi lo := by
  subst hexec
  refine Move.toDelay 69 10 (Phase.delay ⟨?_, hdata, hdiv, hshift, hcall⟩ ?_ ?_ ⟨?_, ?_⟩) ?_ hst hip
  · exact hh.of_eq (by rw [hcpu]; rfl) (by rw [hcpu]; rfl) (by rw [hcpu]; rfl) (by rw [hcpu]; rfl)
      (by rw [hcpu]; rfl)
  · rw [hcpu]; rfl
  · rw [hcpu]; exact htemp
  · rw [hcpu, hip]; show n.ipNext = _; rw [hn, hon.ipNext]
  · rw [hcpu, hip]; show n.ipNext + 1 = _; rw [hn, hon.ipNext]
  · rw [hcpu]; rfl

/-- A register write leaves the core holding the machine's new state. -/
theorem Accepted.holds_set (h : Accepted m c) {v : BitVec 64} (hh : n.halt = false)
    (he : n.error = false) (hr : n.regs = c.regs.write c.dst v) (hk : n.keepOp = 0) :
    Holds (m.set (dstOf c.instruction) v) n where
  running := h.holds.running
  noError := h.holds.noError
  halt := hh
  error := he
  regs := by rw [hr, h.dst, h.holds.regs]; rfl
  keepOp := by rw [hk]; simp [Machine.set, Machine.next, h.upper]
  keepDst := fun d hd => by simp [Machine.set, Machine.next, h.upper] at hd

/-- **A word that the checks refuse stops the core and nothing else.** -/
theorem step_rejects (h : Rest m s) (hr : i.resetNInt = true)
    (hrej : m.rejects s.cpu.instruction = true) :
    Phase (m.exec s.cpu.instruction) (s.step i) .stopped 0 0 := by
  have hcpu : (s.step i).cpu = s.cpu.fault := by
    rw [step_cpu hr, run_rejects h.holds.halt (by rw [h.holds.rejects, hrej])]
  rw [Machine.exec_of_rejects h.holds.running hrej]
  exact stopped_of (m := m) hr rfl rfl rfl hcpu rfl rfl h.holds.regs h.data.stb
    (h.data.ram_step hr) h.call h.call.stb rfl rfl

/-! ## Fetching -/

/-- `STATE_OP_FETCH`, from wherever the data memory comes to rest. -/
theorem delay_of_fetch (hh : Holds m s.cpu) (hdata : DataQuiet m (s.step i)) (hdiv : DivQuiet s)
    (hshift : ShiftQuiet s) (hcall : CallQuiet m s) (hs : s.cpu.stateNext = .opFetch)
    (hip : s.cpu.ipNext = m.ip) (hr : i.resetNInt = true)
    (hacc : m.rejects s.cpu.instruction = false) :
    Phase m (s.step i) .delay 69 10 ∧ (s.step i).cpu.instruction = s.pgm.dataOut := by
  have hcpu : (s.step i).cpu
      = s.cpu.opFetch { s.cpu with ticks := s.cpu.ticks + 1 } (s.wires i) := by
    rw [step_cpu hr, run_opFetch hh.halt (by rw [hh.rejects, hacc]) hs]
  refine ⟨Phase.delay ⟨?_, hdata, ?_, ?_, ?_⟩ ?_ ?_ ⟨?_, ?_⟩, ?_⟩
  · exact hh.of_eq (by rw [hcpu]; rfl) (by rw [hcpu]; rfl) (by rw [hcpu]; rfl) (by rw [hcpu]; rfl)
      (by rw [hcpu]; rfl)
  · exact hdiv.keep hcpu rfl rfl
  · exact hshift.keep hr hcpu rfl
  · exact hcall.keep hr hcpu rfl rfl rfl
  · rw [hcpu]; rfl
  · rw [hcpu]; rfl
  · rw [hcpu]; exact hip
  · rw [hcpu]; show s.cpu.ipNext + 1 = _; rw [hip]
  · rw [hcpu]; rfl

theorem dataQuiet_opFetch (h : Rest m s) (hs : s.cpu.stateNext = .opFetch)
    (hr : i.resetNInt = true) (hacc : m.rejects s.cpu.instruction = false) :
    DataQuiet m (s.step i) := by
  have hcpu : (s.step i).cpu
      = s.cpu.opFetch { s.cpu with ticks := s.cpu.ticks + 1 } (s.wires i) := by
    rw [step_cpu hr, run_opFetch h.holds.halt (by rw [h.holds.rejects, hacc]) hs]
  exact h.data.keep hr hcpu rfl rfl h.data.taken

theorem step_fetch {own : Prop} (h : Rest m s) (hs : s.cpu.stateNext = .opFetch)
    (hip : s.cpu.ipNext = m.ip) (hr : i.resetNInt = true) :
    Move m s (s.step i) own .fetch 70 10 := by
  cases hrej : m.rejects s.cpu.instruction
  · obtain ⟨hphase, hword⟩ := delay_of_fetch h.holds (dataQuiet_opFetch h hs hr hrej) h.div h.shift
      h.call hs hip hr hrej
    exact Move.stay 69 10 hphase hword (by omega) (fun _ => by omega)
  · exact Move.stop (step_rejects h hr hrej)

theorem step_delay {own : Prop} (h : Rest m s) (hs : s.cpu.stateNext = .opFetchDelay)
    (ht : s.cpu.stateNextTemp = .decode) (hon : OnWord m s.cpu) (hr : i.resetNInt = true) :
    Move m s (s.step i) own .delay 69 10 := by
  cases hrej : m.rejects s.cpu.instruction
  · have hcpu : (s.step i).cpu
        = s.cpu.opFetchDelay { s.cpu with ticks := s.cpu.ticks + 1 } (s.wires i) := by
      rw [step_cpu hr, run_opFetchDelay h.holds.halt (by rw [h.holds.rejects, hrej]) hs]
    refine Move.stay 68 10 (Phase.decode ⟨?_, ?_, ?_, ?_, ?_⟩ ?_ ⟨?_, ?_⟩) ?_ (by omega)
      (fun _ => by omega)
    · exact h.holds.of_eq (by rw [hcpu]; rfl) (by rw [hcpu]; rfl) (by rw [hcpu]; rfl)
        (by rw [hcpu]; rfl) (by rw [hcpu]; rfl)
    · exact h.data.keep hr hcpu rfl rfl h.data.taken
    · exact h.div.keep hcpu rfl rfl
    · exact h.shift.keep hr hcpu rfl
    · exact h.call.keep hr hcpu rfl rfl rfl
    · rw [hcpu]; exact ht
    · rw [hcpu]; exact hon.ip
    · rw [hcpu]; exact hon.ipNext
    · rw [hcpu]; rfl
  · exact Move.stop (step_rejects h hr hrej)

/-! ## The first cycle of an instruction -/

section Decode

variable {own : Prop}

theorem Holds.dst {d : BitVec 4} (h : Holds m c) (hup : m.upper = some d) : c.dst = d := by
  have hkeep : c.keepOp = ebpfOpLddw := by rw [h.keepOp, hup]; rfl
  unfold Cpu.dst
  rw [if_neg (by rw [hkeep]; decide)]
  exact (h.keepDst d hup).1

/-- The core on the second word of an `LDDW`. -/
theorem step_cpu_upper {d : BitVec 4} (h : Holds m s.cpu) (hs : s.cpu.stateNext = .decode)
    (hr : i.resetNInt = true) (hup : m.upper = some d)
    (hacc : m.rejects s.cpu.instruction = false) :
    (s.step i).cpu
      = { { { s.cpu with ticks := s.cpu.ticks + 1 } with keepOp := 0, cpuDataAck := false } with
            regs := s.cpu.regs.write d
              (s.cpu.immediate ++ s.cpu.dstReg.extractLsb' 0 32) }.advance (s.wires i)
          s.cpu.stateNext := by
  have hkeep : s.cpu.keepOp = ebpfOpLddw := by rw [h.keepOp, hup]; rfl
  have hk : ¬ s.cpu.keepOp = 0 := by rw [hkeep]; decide
  have hop : s.cpu.opcode = ebpfOpLddw := by
    unfold Cpu.opcode
    rw [if_neg hk, hkeep]
  have hcls : opclassOf s.cpu.opcode = opcLd := by rw [hop]; decide
  rw [step_cpu hr, run_decode h.halt (by rw [h.rejects, hacc]) hs, decode_ld hcls,
    Cpu.opcLdArm, if_pos hop, if_neg hk, h.dst hup]

/-- The second word of an `LDDW`. -/
theorem step_upper {d : BitVec 4} (h : Rest m s) (hs : s.cpu.stateNext = .decode)
    (hon : OnWord m s.cpu) (hr : i.resetNInt = true) (hup : m.upper = some d)
    (hacc : m.rejects s.cpu.instruction = false) : Move m s (s.step i) own .decode 68 10 := by
  have hcpu := step_cpu_upper (i := i) h.holds hs hr hup hacc
  have hdst := h.holds.dst hup
  have hexec : m.exec s.cpu.instruction = m.joinUpper d s.cpu.instruction := by
    simp [Machine.exec, h.holds.running, hacc, hup]
  refine finish (Or.inl rfl) hon hexec rfl hcpu hs rfl ?_ ?_ ?_ ?_ ?_
  · refine ⟨h.holds.running, h.holds.noError, h.holds.halt, h.holds.error, ?_, rfl, ?_⟩
    · simp only [Machine.joinUpper, Machine.set, Machine.next, Cpu.dstReg, hdst, h.holds.regs,
        Cpu.immediate]
    · intro d' hd'
      simp [Machine.joinUpper, Machine.set, Machine.next] at hd'
  · exact (h.data.keep hr hcpu rfl rfl rfl).congr rfl
  · exact h.div.keep hcpu rfl rfl
  · exact h.shift.keep hr hcpu rfl
  · exact (h.call.keep hr hcpu rfl rfl rfl).congr rfl

/-- The first word of an `LDDW`, and the opcodes of its class that do not exist. -/
theorem step_ld (h : Rest m s) (ha : Accepted m s.cpu) (hs : s.cpu.stateNext = .decode)
    (hr : i.resetNInt = true) (hcls : opclassOf (opcodeOf s.cpu.instruction) = opcLd) :
    Move m s (s.step i) own .decode 68 10 := by
  have hrun : (s.step i).cpu = s.cpu.opcLdArm
      { { s.cpu with ticks := s.cpu.ticks + 1 } with keepOp := 0, cpuDataAck := false }
      (s.wires i) := by
    rw [step_cpu hr, run_decode ha.holds.halt ha.rejects hs, decode_ld (by rw [ha.opcode, hcls])]
  by_cases hop : opcodeOf s.cpu.instruction = ebpfOpLddw
  · -- the lower half is in its register, and the upper one is waited for
    have hcpu : (s.step i).cpu
        = { { { s.cpu with ticks := s.cpu.ticks + 1 } with keepOp := 0, cpuDataAck := false } with
              regs := s.cpu.regs.write s.cpu.dst (s.cpu.immediate.setWidth 64),
              keepOp := s.cpu.opcode, keepDst := s.cpu.dst }.advance (s.wires i)
            s.cpu.stateNext := by
      rw [hrun, Cpu.opcLdArm, if_pos (by rw [ha.opcode, hop]), if_pos ha.keepOp]
    have hexec : m.exec s.cpu.instruction = { m with upper := some (dstOf s.cpu.instruction) }.set
        (dstOf s.cpu.instruction) ((immediateOf s.cpu.instruction).setWidth 64) := by
      rw [ha.exec, Machine.dispatch_ld hcls, if_pos hop]
    refine finish (Or.inl rfl) ha.onWord hexec rfl hcpu hs rfl ?_ ?_ ?_ ?_ ?_
    · refine ⟨h.holds.running, h.holds.noError, h.holds.halt, h.holds.error, ?_, ?_, ?_⟩
      · simp only [Machine.set, Machine.next, ha.dst, h.holds.regs, Cpu.immediate]
      · simp only [Machine.set, Machine.next, Option.isSome_some, if_true]
        rw [ha.opcode, hop]
      · intro d hd
        simp only [Machine.set, Machine.next, Option.some.injEq] at hd
        have hacc := ha.accepted
        simp only [Machine.rejects, ha.upper, Bool.or_eq_false_iff, decide_eq_false_iff_not] at hacc
        refine ⟨?_, ?_⟩
        · rw [← hd]; exact ha.dst
        · rw [← hd]; omega
    · exact (h.data.keep hr hcpu rfl rfl rfl).congr rfl
    · exact h.div.keep hcpu rfl rfl
    · exact h.shift.keep hr hcpu rfl
    · exact (h.call.keep hr hcpu rfl rfl rfl).congr rfl
  · have hcpu : (s.step i).cpu
        = { { s.cpu with ticks := s.cpu.ticks + 1 } with
            keepOp := 0, cpuDataAck := false }.fault := by
      rw [hrun, Cpu.opcLdArm, if_neg (by rw [ha.opcode]; exact hop)]
    have hexec : m.exec s.cpu.instruction = m.fail := by
      rw [ha.exec, Machine.dispatch_ld hcls, if_neg hop]
    exact stop_of_fail hr hexec hcpu rfl rfl h.holds.regs h.data.stb (h.data.ram_step hr) h.call
      h.call.stb rfl rfl

theorem step_ldx (h : Rest m s) (ha : Accepted m s.cpu) (hs : s.cpu.stateNext = .decode)
    (hr : i.resetNInt = true) (hcls : opclassOf (opcodeOf s.cpu.instruction) = opcLdx) :
    Move m s (s.step i) own .decode 68 10 := by
  have hcpu : (s.step i).cpu
      = { { { s.cpu with ticks := s.cpu.ticks + 1 } with keepOp := 0, cpuDataAck := false } with
            dataAdr := s.cpu.dataAddress s.cpu.srcReg, stateNext := .dataFetch } := by
    rw [step_cpu hr, run_decode ha.holds.halt ha.rejects hs, decode_ldx (by rw [ha.opcode, hcls]),
      Cpu.opcLdxArm, h.data.taken]
    rfl
  have hinstr : (s.step i).cpu.instruction = s.cpu.instruction := by rw [hcpu]
  refine Move.stay 3 10 (Phase.loadStart ⟨?_, ?_, ?_, ?_, ?_, ?_⟩ ?_ ?_ ?_ ?_
    (h.data.ram_step hr)) hinstr (by omega) (fun _ => by omega)
  · exact ha.keep hcpu rfl rfl rfl rfl rfl rfl rfl
  · exact h.div.keep hcpu rfl rfl
  · exact h.shift.keep hr hcpu rfl
  · exact h.call.keep hr hcpu rfl rfl rfl
  · rw [hinstr, hcls]
  · rw [hcpu]; exact h.data.we
  · rw [hcpu]
  · rw [hcpu]; exact h.data.stb
  · rw [hinstr, hcpu]
    simp only [Cpu.dataAddress, ha.srcReg]
    rfl
  · rw [hcpu]

/-- `OPC_ST` and `OPC_STX`: `arm` is the entry of their table. -/
theorem step_storeTo {arm : Option (BitVec 4 × BitVec 64)} (h : Rest m s) (ha : Accepted m s.cpu)
    (hr : i.resetNInt = true)
    (hcls : opclassOf (opcodeOf s.cpu.instruction) = opcSt
      ∨ opclassOf (opcodeOf s.cpu.instruction) = opcStx)
    (heffect : m.dispatch s.cpu.instruction = m.storeTo s.cpu.instruction arm)
    (hwidth : ∀ ww v, arm = some (ww, v) → 0 < ww.toNat ∧ ww.toNat ≤ 8)
    (hrun : (s.step i).cpu = s.cpu.storeArm
      { { s.cpu with ticks := s.cpu.ticks + 1 } with keepOp := 0, cpuDataAck := false }
      (s.wires i) arm) : Move m s (s.step i) own .decode 68 10 := by
  rw [Cpu.storeArm, h.data.taken] at hrun
  cases harm : arm with
  | none =>
      rw [harm] at hrun heffect
      exact stop_of_fail hr (ha.exec.trans heffect) hrun rfl rfl h.holds.regs h.data.stb
        (h.data.ram_step hr) h.call h.call.stb rfl rfl
  | some a =>
      obtain ⟨ww, v⟩ := a
      rw [harm] at hrun heffect
      have hcpu : (s.step i).cpu
          = { { { s.cpu with ticks := s.cpu.ticks + 1 } with keepOp := 0, cpuDataAck := false } with
                dataAdr := s.cpu.dataAddress s.cpu.dstReg, dataWe := true, stateNext := .dataFetch,
                dataWw := ww, dataDatW := v } := hrun
      have hinstr : (s.step i).cpu.instruction = s.cpu.instruction := by rw [hcpu]
      refine Move.stay 3 10 (Phase.storeStart ww v ⟨?_, ?_, ?_, ?_, ?_, ?_,
        hwidth ww v harm⟩ ?_ ?_ ⟨?_, ?_, ?_, ?_, ?_⟩ (h.data.ram_step hr)) hinstr (by omega)
        (fun _ => by omega)
      · exact ha.keep hcpu rfl rfl rfl rfl rfl rfl rfl
      · exact h.div.keep hcpu rfl rfl
      · exact h.shift.keep hr hcpu rfl
      · exact h.call.keep hr hcpu rfl rfl rfl
      · rw [hinstr]; exact hcls
      · rw [hinstr]; exact heffect
      · rw [hcpu]
      · rw [hcpu]; exact h.data.stb
      · rw [hinstr, hcpu]
        simp only [Cpu.dataAddress, ha.dstReg]
        rfl
      · rw [hcpu]
      · rw [hcpu]
      · rw [hcpu]
      · rw [hcpu]

theorem stArm_width {op : BitVec 8} {imm : BitVec 32} {ww : BitVec 4} {v : BitVec 64}
    (h : stArm op imm = some (ww, v)) : 0 < ww.toNat ∧ ww.toNat ≤ 8 := by
  unfold stArm at h
  split_ifs at h <;> obtain ⟨rfl, -⟩ := Prod.mk.inj (Option.some.inj h) <;> decide

theorem stxArm_width {op : BitVec 8} {x : BitVec 64} {ww : BitVec 4} {v : BitVec 64}
    (h : stxArm op x = some (ww, v)) : 0 < ww.toNat ∧ ww.toNat ≤ 8 := by
  unfold stxArm at h
  split_ifs at h <;> obtain ⟨rfl, -⟩ := Prod.mk.inj (Option.some.inj h) <;> decide

theorem step_st (h : Rest m s) (ha : Accepted m s.cpu) (hs : s.cpu.stateNext = .decode)
    (hr : i.resetNInt = true) (hcls : opclassOf (opcodeOf s.cpu.instruction) = opcSt) :
    Move m s (s.step i) own .decode 68 10 := by
  refine step_storeTo h ha hr (Or.inl hcls) (Machine.dispatch_st hcls) (fun _ _ => stArm_width) ?_
  rw [step_cpu hr, run_decode ha.holds.halt ha.rejects hs, decode_st (by rw [ha.opcode, hcls]),
    ha.opcode]
  rfl

theorem step_stx (h : Rest m s) (ha : Accepted m s.cpu) (hs : s.cpu.stateNext = .decode)
    (hr : i.resetNInt = true) (hcls : opclassOf (opcodeOf s.cpu.instruction) = opcStx) :
    Move m s (s.step i) own .decode 68 10 := by
  refine step_storeTo h ha hr (Or.inr hcls) (Machine.dispatch_stx hcls) (fun _ _ => stxArm_width) ?_
  rw [step_cpu hr, run_decode ha.holds.halt ha.rejects hs, decode_stx (by rw [ha.opcode, hcls]),
    ha.opcode, ha.srcReg]

/-! `OPC_ALU` and `OPC_ALU64`: a division or a shift starts, anything else is done at once. -/

/-- A division hands its two numbers to the divider. -/
theorem step_divRequest {q : DivRequest} {shift : Option ShiftRequest}
    {keep : BitVec 64 → BitVec 64} {res : Option (BitVec 64)} (h : Rest m s)
    (ha : Accepted m s.cpu) (hr : i.resetNInt = true) (halu : isAlu s.cpu.instruction)
    (hdiv : (m.aluWork s.cpu.instruction).div = some q)
    (hrun : (s.step i).cpu = s.cpu.aluArm
      { { s.cpu with ticks := s.cpu.ticks + 1 } with keepOp := 0, cpuDataAck := false }
      (s.wires i) (some q) shift keep res) : Move m s (s.step i) own .decode 68 10 := by
  have hcpu : (s.step i).cpu
      = { { { s.cpu with ticks := s.cpu.ticks + 1 } with keepOp := 0, cpuDataAck := false } with
            cpuDiv64Ack := false, div64Dividend := q.dividend, div64Divisor := q.divisor,
            stateNext := .divPending, div64Stb := true } :=
    hrun.trans (aluArm_div q h.div.taken)
  have hinstr : (s.step i).cpu.instruction = s.cpu.instruction := by rw [hcpu]
  have hdividing : Dividing m (s.step i) q := by
    refine ⟨ha.keep hcpu rfl rfl rfl rfl rfl rfl rfl, h.data.keep hr hcpu rfl rfl rfl,
      h.shift.keep hr hcpu rfl, h.call.keep hr hcpu rfl rfl rfl, ?_, ?_⟩
    · rw [hinstr]; exact halu
    · rw [hinstr]; exact hdiv
  refine Move.stay 67 0 (Phase.divStart q hdividing ?_ ?_ ?_ ?_ ?_) hinstr (by omega)
    (fun _ => by omega)
  all_goals rw [hcpu]

/-- A shift asks the shifter. -/
theorem step_shiftRequest {q : ShiftRequest} {keep : BitVec 64 → BitVec 64}
    {res : Option (BitVec 64)} (h : Rest m s) (ha : Accepted m s.cpu)
    (hs : s.cpu.stateNext = .decode) (hr : i.resetNInt = true) (halu : isAlu s.cpu.instruction)
    (hdiv : (m.aluWork s.cpu.instruction).div = none)
    (hshift : (m.aluWork s.cpu.instruction).shift = some q)
    (hrun : (s.step i).cpu = s.cpu.aluArm
      { { s.cpu with ticks := s.cpu.ticks + 1 } with keepOp := 0, cpuDataAck := false }
      (s.wires i) none (some q) keep res) : Move m s (s.step i) own .decode 68 10 := by
  have hwire : (s.wires i).arsh64Ack = false := h.shift.ack
  have hcpu : (s.step i).cpu
      = { { { s.cpu with ticks := s.cpu.ticks + 1 } with keepOp := 0, cpuDataAck := false } with
            cpuDiv64Ack := false, arsh64Value := q.value, arsh64Shift := q.shift,
            arsh64Arith := q.arith, arsh64Left := q.left, arsh64Stb := true } :=
    hrun.trans (aluArm_shift q hwire)
  have hinstr : (s.step i).cpu.instruction = s.cpu.instruction := by rw [hcpu]
  have hunit : (s.step i).arsh64 = s.arsh64 := by
    simp only [Sys.step, hr, h.shift.stb, Bool.not_true]
    exact Shifter.step_idle h.shift.ack h.shift.state _ _ _ _
  have hshifting : Shifting m (s.step i) q := by
    refine ⟨ha.keep hcpu rfl rfl rfl rfl rfl rfl rfl, h.data.keep hr hcpu rfl rfl rfl,
      h.div.keep hcpu rfl h.div.taken.symm, h.call.keep hr hcpu rfl rfl rfl, ?_, ?_, ?_, ?_, ?_, ?_,
      ?_, ?_, ?_⟩
    · rw [hinstr]; exact halu
    · rw [hinstr]; exact hdiv
    · rw [hinstr]; exact hshift
    · rw [hcpu]; exact hs
    all_goals rw [hcpu]
  exact Move.stay 3 0 (Phase.shiftStart q hshifting (hunit ▸ h.shift.ack) (hunit ▸ h.shift.state))
    hinstr (by omega) (fun _ => by omega)

/-- Any other operation writes its result. -/
theorem step_result {v : BitVec 64} {keep : BitVec 64 → BitVec 64} (h : Rest m s)
    (ha : Accepted m s.cpu) (hs : s.cpu.stateNext = .decode) (hr : i.resetNInt = true)
    (hexec : m.exec s.cpu.instruction = m.set (dstOf s.cpu.instruction) v)
    (hrun : (s.step i).cpu = s.cpu.aluArm
      { { s.cpu with ticks := s.cpu.ticks + 1 } with keepOp := 0, cpuDataAck := false }
      (s.wires i) none none keep (some v)) : Move m s (s.step i) own .decode 68 10 := by
  have hcpu : (s.step i).cpu
      = { { { s.cpu with ticks := s.cpu.ticks + 1 } with keepOp := 0, cpuDataAck := false } with
            cpuDiv64Ack := false,
            regs := s.cpu.regs.write s.cpu.dst v }.advance (s.wires i) s.cpu.stateNext := hrun
  refine finish (Or.inl rfl) ha.onWord hexec rfl hcpu hs rfl ?_ ?_ ?_ ?_ ?_
  · exact ha.holds_set ha.holds.halt ha.holds.error rfl rfl
  · exact (h.data.keep hr hcpu rfl rfl rfl).congr rfl
  · exact h.div.keep hcpu rfl h.div.taken.symm
  · exact h.shift.keep hr hcpu rfl
  · exact (h.call.keep hr hcpu rfl rfl rfl).congr rfl

theorem step_alu (h : Rest m s) (ha : Accepted m s.cpu) (hs : s.cpu.stateNext = .decode)
    (hr : i.resetNInt = true) (halu : isAlu s.cpu.instruction) :
    Move m s (s.step i) own .decode 68 10 := by
  have hrun := ha.step_aluArm halu hs hr
  have hexec := ha.exec.trans (Machine.dispatch_alu (m := m) halu)
  cases hdiv : (m.aluWork s.cpu.instruction).div with
  | some q =>
      rw [hdiv] at hrun
      exact step_divRequest h ha hr halu hdiv hrun
  | none =>
      rw [hdiv] at hrun hexec
      cases hshift : (m.aluWork s.cpu.instruction).shift with
      | some q =>
          rw [hshift] at hrun
          exact step_shiftRequest h ha hs hr halu hdiv hshift hrun
      | none =>
          rw [hshift] at hrun hexec
          cases hres : (m.aluWork s.cpu.instruction).res with
          | some v =>
              rw [hres] at hrun hexec
              exact step_result h ha hs hr hexec hrun
          | none =>
              rw [hres] at hrun hexec
              exact stop_of_fail hr hexec hrun rfl rfl h.holds.regs h.data.stb (h.data.ram_step hr)
                h.call h.call.stb rfl rfl

/-- `CALL` hands the five argument registers to the call handler. -/
theorem step_call (h : Rest m s) (ha : Accepted m s.cpu) (hs : s.cpu.stateNext = .decode)
    (hr : i.resetNInt = true) (hop : opcodeOf s.cpu.instruction = ebpfOpCall) :
    Move m s (s.step i) own .decode 68 10 := by
  have hcls : opclassOf s.cpu.opcode = opcJmp := by rw [ha.opcode, hop]; decide
  have hcpu : (s.step i).cpu
      = { { { s.cpu with ticks := s.cpu.ticks + 1 } with keepOp := 0, cpuDataAck := false } with
            callHandlerR1 := s.cpu.regs.read 1, callHandlerR2 := s.cpu.regs.read 2,
            callHandlerR3 := s.cpu.regs.read 3, callHandlerR4 := s.cpu.regs.read 4,
            callHandlerR5 := s.cpu.regs.read 5,
            callHandlerFunc := s.cpu.immediate.setWidth 64,
            callHandlerStb := true, stateNext := .callPending } := by
    rw [step_cpu hr, run_decode ha.holds.halt ha.rejects hs, decode_jmp hcls, Cpu.opcJmpArm,
      if_pos (by rw [ha.opcode, hop])]
  have hinstr : (s.step i).cpu.instruction = s.cpu.instruction := by rw [hcpu]
  -- the handler has not been asked yet at this edge, and only settles a write of an earlier call
  obtain ⟨hstore, hack', herr'⟩ := callHandler_step (s := s) hr h.call.stb
  rw [h.call.store, h.call.settled] at hstore
  have hcalling : (s.step i).callHandler.Calling m.store (s.step i).cpu.callHandlerFunc
      (s.step i).cpu.callHandlerR1 (s.step i).cpu.callHandlerR2 := by
    rw [← hstore]
    exact CallHandler.calling_start hack' herr'
  have hwait : (s.step i).callHandler.wait (s.step i).cpu.callHandlerFunc ≤ 3 := by
    unfold CallHandler.wait
    split_ifs <;> omega
  refine Move.stay _ 0 (Phase.call ⟨?_, ?_, ?_, ?_, ?_, ?_, ?_, ?_, ?_, ?_,
    hcalling⟩) hinstr (by omega) (fun _ => by omega)
  · exact ha.keep hcpu rfl rfl rfl rfl rfl rfl rfl
  · exact h.data.keep hr hcpu rfl rfl rfl
  · exact h.div.keep hcpu rfl rfl
  · exact h.shift.keep hr hcpu rfl
  · rw [hinstr, hop]
  · rw [hcpu]
  · rw [hcpu]
  · rw [hinstr, hcpu]
    rfl
  · rw [hcpu]; simp only [h.holds.regs]
  · rw [hcpu]; simp only [h.holds.regs]

/-- A jump leaves the fetch of its target to the next edge. -/
theorem toFetch_of_jump (h : Rest m s) (ha : Accepted m s.cpu) (hr : i.resetNInt = true)
    (hexec : m.exec s.cpu.instruction = m') (hregs : m'.regs = m.regs) (hmem : m'.mem = m.mem)
    (hstore : m'.store = m.store) (hup : m'.upper = none) (hhalt : m'.halt = false)
    (herr : m'.error = false) {ip ipNext : BitVec 10} (hip : ipNext = m'.ip)
    (hcpu : (s.step i).cpu
      = { { { s.cpu with ticks := s.cpu.ticks + 1 } with keepOp := 0, cpuDataAck := false } with
            stateNext := .opFetch, ip := ip, ipNext := ipNext }) :
    Move m s (s.step i) own .decode 68 10 := by
  subst hexec
  -- the word stays in `instruction` and is checked once more while its target is fetched
  have hacc : (m.exec s.cpu.instruction).rejects s.cpu.instruction = false := by
    have hm := ha.accepted
    rw [Machine.rejects, ha.upper] at hm
    rw [Machine.rejects, hup]
    exact hm
  refine Move.toFetch 70 10 (Phase.fetch ⟨?_, ?_, ?_, ?_, ?_⟩ ?_ ?_) ?_ (Or.inl rfl) hacc
  · refine ⟨hhalt, herr, ?_, ?_, ?_, ?_, ?_⟩
    · rw [hcpu]; exact h.holds.halt
    · rw [hcpu]; exact h.holds.error
    · rw [hcpu, hregs]; exact h.holds.regs
    · rw [hcpu, hup]; rfl
    · intro d hd; rw [hup] at hd; cases hd
  · exact (h.data.keep hr hcpu rfl rfl rfl).congr hmem
  · exact h.div.keep hcpu rfl rfl
  · exact h.shift.keep hr hcpu rfl
  · exact (h.call.keep hr hcpu rfl rfl rfl).congr hstore
  · rw [hcpu]
  · rw [hcpu]; exact hip
  · rw [hcpu]

theorem step_jmp (h : Rest m s) (ha : Accepted m s.cpu) (hs : s.cpu.stateNext = .decode)
    (hr : i.resetNInt = true) (hcls : opclassOf (opcodeOf s.cpu.instruction) = opcJmp) :
    Move m s (s.step i) own .decode 68 10 := by
  by_cases hcall : opcodeOf s.cpu.instruction = ebpfOpCall
  · exact step_call h ha hs hr hcall
  have hrun : (s.step i).cpu = s.cpu.opcJmpArm
      { { s.cpu with ticks := s.cpu.ticks + 1 } with keepOp := 0, cpuDataAck := false } := by
    rw [step_cpu hr, run_decode ha.holds.halt ha.rejects hs, decode_jmp (by rw [ha.opcode, hcls])]
  rw [Cpu.opcJmpArm, if_neg (by rw [ha.opcode]; exact hcall)] at hrun
  have heffect : m.exec s.cpu.instruction = m.jump s.cpu.instruction := by
    rw [ha.exec, Machine.dispatch_jmp hcls]
  rw [Machine.jump, if_neg hcall] at heffect
  by_cases hexit : opcodeOf s.cpu.instruction = ebpfOpExit
  · -- `EXIT` halts without an error
    rw [if_pos (by rw [ha.opcode]; exact hexit)] at hrun
    rw [if_pos hexit] at heffect
    refine Move.stop (stopped_of (m := m) hr ?_ ?_ ?_ hrun rfl ?_ ?_ h.data.stb
      (h.data.ram_step hr) h.call h.call.stb rfl rfl)
    all_goals rw [heffect]
    · exact h.holds.error.trans h.holds.noError.symm
    · exact h.holds.regs
  · rw [if_neg (by rw [ha.opcode]; exact hexit), ha.opcode, ha.dstReg, ha.srcReg] at hrun
    rw [if_neg hexit] at heffect
    cases harm : jmpArm (opcodeOf s.cpu.instruction) (m.regs.read (dstOf s.cpu.instruction))
        (m.regs.read (srcOf s.cpu.instruction)) (immediateOf s.cpu.instruction) with
    | none =>
        rw [harm] at heffect
        rw [show s.cpu.immediate = immediateOf s.cpu.instruction from rfl, harm] at hrun
        exact stop_of_fail hr heffect hrun rfl rfl h.holds.regs h.data.stb (h.data.ram_step hr)
          h.call h.call.stb rfl rfl
    | some taken =>
        rw [harm] at heffect
        rw [show s.cpu.immediate = immediateOf s.cpu.instruction from rfl, harm] at hrun
        cases taken
        · exact toFetch_of_jump h ha hr heffect rfl rfl rfl ha.upper h.holds.running
            h.holds.noError ha.onWord.ipNext hrun
        · refine toFetch_of_jump h ha hr heffect rfl rfl rfl ha.upper h.holds.running
            h.holds.noError ?_ hrun
          rw [ha.onWord.ipNext]
          rfl

theorem step_res (h : Rest m s) (ha : Accepted m s.cpu) (hs : s.cpu.stateNext = .decode)
    (hr : i.resetNInt = true) (hcls : opclassOf (opcodeOf s.cpu.instruction) = opcRes) :
    Move m s (s.step i) own .decode 68 10 := by
  have hcpu : (s.step i).cpu
      = { { s.cpu with ticks := s.cpu.ticks + 1 } with
          keepOp := 0, cpuDataAck := false }.fault := by
    rw [step_cpu hr, run_decode ha.holds.halt ha.rejects hs, decode_res (by rw [ha.opcode, hcls])]
  have hexec : m.exec s.cpu.instruction = m.fail := by
    rw [ha.exec, Machine.dispatch_res hcls]
  exact stop_of_fail hr hexec hcpu rfl rfl h.holds.regs h.data.stb (h.data.ram_step hr) h.call
    h.call.stb rfl rfl

/-- **The first `STATE_DECODE` cycle of a word.** -/
theorem step_decode (h : Rest m s) (hs : s.cpu.stateNext = .decode) (hon : OnWord m s.cpu)
    (hr : i.resetNInt = true) : Move m s (s.step i) own .decode 68 10 := by
  cases hrej : m.rejects s.cpu.instruction with
  | true => exact Move.stop (step_rejects h hr hrej)
  | false =>
      cases hup : m.upper with
      | some d => exact step_upper h hs hon hr hup hrej
      | none =>
          have ha : Accepted m s.cpu := ⟨h.holds, hon, hup, hrej⟩
          rcases opclass_cases (opcodeOf s.cpu.instruction) with
            hc | hc | hc | hc | hc | hc | hc | hc
          · exact step_ld h ha hs hr hc
          · exact step_ldx h ha hs hr hc
          · exact step_st h ha hs hr hc
          · exact step_stx h ha hs hr hc
          · exact step_alu h ha hs hr (Or.inl hc)
          · exact step_jmp h ha hs hr hc
          · exact step_res h ha hs hr hc
          · exact step_alu h ha hs hr (Or.inr hc)

end Decode

end VeBpf
