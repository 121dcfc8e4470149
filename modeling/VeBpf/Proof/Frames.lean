import VeBpf.Proof.Phases

/-!
# One clock edge, part by part

What a clock edge does to the units the current instruction does not use, and
what `STATE_DECODE` does for each opcode class. The phases of
`VeBpf.Proof.Phases` are carried from edge to edge with these alone.
-/

namespace VeBpf

open ByteMem

variable {m : Machine} {s : Sys} {c : Cpu} {i : Inputs} {w : Wires}

/-! ## The core's edge -/

theorem step_cpu (hr : i.resetNInt = true) : (s.step i).cpu = s.cpu.run (s.wires i) := by
  simp [Sys.step, Cpu.step, hr]

/-- A word that the checks refuse stops the core before anything else happens. -/
theorem run_rejects (hh : c.halt = false) (hrej : c.rejects = true) : c.run w = c.fault := by
  simp [Cpu.run, hh, hrej]

theorem run_opFetch (hh : c.halt = false) (hrej : c.rejects = false)
    (hs : c.stateNext = .opFetch) : c.run w = c.opFetch { c with ticks := c.ticks + 1 } w := by
  simp [Cpu.run, hh, hrej, hs]

theorem run_opFetchDelay (hh : c.halt = false) (hrej : c.rejects = false)
    (hs : c.stateNext = .opFetchDelay) :
    c.run w = c.opFetchDelay { c with ticks := c.ticks + 1 } w := by
  simp [Cpu.run, hh, hrej, hs]

theorem run_decode (hh : c.halt = false) (hrej : c.rejects = false)
    (hs : c.stateNext = .decode) : c.run w = c.decode { c with ticks := c.ticks + 1 } w := by
  simp [Cpu.run, hh, hrej, hs]

theorem run_dataFetch (hh : c.halt = false) (hrej : c.rejects = false)
    (hs : c.stateNext = .dataFetch) : c.run w = { c with ticks := c.ticks + 1 }.dataFetch w := by
  simp [Cpu.run, hh, hrej, hs]

theorem run_divPending (hh : c.halt = false) (hrej : c.rejects = false)
    (hs : c.stateNext = .divPending) :
    c.run w = c.divPending { c with ticks := c.ticks + 1 } w := by
  simp [Cpu.run, hh, hrej, hs]

theorem run_callPending (hh : c.halt = false) (hrej : c.rejects = false)
    (hs : c.stateNext = .callPending) :
    c.run w = c.callPending { c with ticks := c.ticks + 1 } w := by
  simp [Cpu.run, hh, hrej, hs]

theorem Accepted.rejects (h : Accepted m c) : c.rejects = false := by
  rw [h.holds.rejects, h.accepted]

/-! ## Units that are not in use -/

theorem ram_step_own (hr : i.resetNInt = true) (hc : i.csrCtl1 = false) :
    (s.step i).dataMem = s.dataMem.step false s.cpu.dataStb s.cpu.dataAdr s.cpu.dataWe
      s.cpu.dataWw s.cpu.dataDatW := by
  simp [Sys.step, Sys.dataMemStep, hr, hc]

/-- While the host holds the data memory and the core is not in reset, the memory is. -/
theorem ram_step_host (hr : i.resetNInt = true) (hc : i.csrCtl1 = true) :
    (s.step i).dataMem.Idle s.dataMem.mem := by
  simp only [Sys.step, Sys.dataMemStep, hr, hc]
  exact RamModule.idle_of_reset _ _ _ _ _ _

theorem DataQuiet.ram_step (h : DataQuiet m s) (hr : i.resetNInt = true) :
    (s.step i).dataMem.Idle m.mem := by
  cases hc : i.csrCtl1
  · rw [ram_step_own hr hc, h.stb]
    exact h.ram.step _ _ _ _
  · rw [← h.ram.holds]
    exact ram_step_host hr hc

theorem DataQuiet.step (h : DataQuiet m s) (hr : i.resetNInt = true)
    (hstb : (s.step i).cpu.dataStb = false) (hwe : (s.step i).cpu.dataWe = false)
    (htaken : (s.step i).cpu.cpuDataAck = false) : DataQuiet m (s.step i) :=
  ⟨hstb, hwe, htaken, h.ram_step hr⟩

theorem ShiftQuiet.step (h : ShiftQuiet s) (hr : i.resetNInt = true)
    (hstb : (s.step i).cpu.arsh64Stb = false) : ShiftQuiet (s.step i) := by
  have hstep : (s.step i).arsh64 = s.arsh64 := by
    simp only [Sys.step, hr, h.stb, Bool.not_true]
    exact Shifter.step_idle h.ack h.state _ _ _ _
  exact ⟨hstb, hstep ▸ h.ack, hstep ▸ h.state⟩

theorem callHandler_step (hr : i.resetNInt = true) (hstb : s.cpu.callHandlerStb = false) :
    (s.step i).callHandler.store
      = s.callHandler.store.written s.cpu.callHandlerR1 s.cpu.callHandlerR2
    ∧ (s.step i).callHandler.ack = false ∧ (s.step i).callHandler.err = false := by
  simp only [Sys.step, hr, hstb, Bool.not_true]
  exact CallHandler.step_idle _ _ _ _

theorem CallQuiet.step (h : CallQuiet m s) (hr : i.resetNInt = true)
    (hstb : (s.step i).cpu.callHandlerStb = false)
    (h1 : (s.step i).cpu.callHandlerR1 = s.cpu.callHandlerR1)
    (h2 : (s.step i).cpu.callHandlerR2 = s.cpu.callHandlerR2) : CallQuiet m (s.step i) := by
  refine ⟨hstb, ?_, ?_⟩
  · rw [(callHandler_step hr h.stb).1, h.store, h.settled]
  · rw [h1, h2, h.settled]

theorem CallQuiet.congr {m' : Machine} (h : CallQuiet m s) (hm : m'.store = m.store) :
    CallQuiet m' s :=
  ⟨h.stb, by rw [h.store, hm], by rw [hm, h.settled]⟩

theorem DataQuiet.congr {m' : Machine} (h : DataQuiet m s) (hm : m'.mem = m.mem) :
    DataQuiet m' s :=
  ⟨h.stb, h.we, h.taken, hm ▸ h.ram⟩

/-! Where the edge takes the core to `n`, a unit stays at rest if `n` asks no more of it than the
core did before. -/

section Keep

variable {n : Cpu}

theorem DataQuiet.keep (h : DataQuiet m s) (hr : i.resetNInt = true) (hcpu : (s.step i).cpu = n)
    (hstb : n.dataStb = s.cpu.dataStb) (hwe : n.dataWe = s.cpu.dataWe)
    (htaken : n.cpuDataAck = false) : DataQuiet m (s.step i) := by
  subst hcpu
  exact h.step hr (hstb.trans h.stb) (hwe.trans h.we) htaken

theorem DivQuiet.keep (h : DivQuiet s) (hcpu : (s.step i).cpu = n)
    (hstb : n.div64Stb = s.cpu.div64Stb) (htaken : n.cpuDiv64Ack = s.cpu.cpuDiv64Ack) :
    DivQuiet (s.step i) := by
  subst hcpu
  exact ⟨hstb.trans h.stb, htaken.trans h.taken⟩

theorem ShiftQuiet.keep (h : ShiftQuiet s) (hr : i.resetNInt = true) (hcpu : (s.step i).cpu = n)
    (hstb : n.arsh64Stb = s.cpu.arsh64Stb) : ShiftQuiet (s.step i) := by
  subst hcpu
  exact h.step hr (hstb.trans h.stb)

theorem CallQuiet.keep (h : CallQuiet m s) (hr : i.resetNInt = true) (hcpu : (s.step i).cpu = n)
    (hstb : n.callHandlerStb = s.cpu.callHandlerStb)
    (h1 : n.callHandlerR1 = s.cpu.callHandlerR1) (h2 : n.callHandlerR2 = s.cpu.callHandlerR2) :
    CallQuiet m (s.step i) := by
  subst hcpu
  exact h.step hr (hstb.trans h.stb) h1 h2

/-- A core that has done nothing to the word at hand has still accepted it. -/
theorem Accepted.keep (h : Accepted m s.cpu) (hcpu : (s.step i).cpu = n)
    (hh : n.halt = s.cpu.halt) (he : n.error = s.cpu.error) (hregs : n.regs = s.cpu.regs)
    (hk : n.keepOp = 0) (hip : n.ip = s.cpu.ip) (hnext : n.ipNext = s.cpu.ipNext)
    (hw : n.instruction = s.cpu.instruction) : Accepted m (s.step i).cpu := by
  subst hcpu
  refine ⟨⟨h.holds.running, h.holds.noError, hh.trans h.holds.halt, he.trans h.holds.error,
    hregs.trans h.holds.regs, ?_, ?_⟩, ⟨hip.trans h.onWord.ip,
    hnext.trans h.onWord.ipNext⟩, h.upper, ?_⟩
  · rw [hk, h.upper]
    rfl
  · intro d hd
    rw [h.upper] at hd
    cases hd
  · rw [hw, h.accepted]

end Keep

/-! ## `STATE_DECODE` by opcode class -/

section Decode

variable {n : Cpu}

theorem decode_ld (h : opclassOf c.opcode = opcLd) :
    c.decode n w = c.opcLdArm { n with keepOp := 0, cpuDataAck := false } w := by
  simp [Cpu.decode, h]

theorem decode_ldx (h : opclassOf c.opcode = opcLdx) :
    c.decode n w = c.opcLdxArm { n with keepOp := 0, cpuDataAck := false } w := by
  simp [Cpu.decode, h, opc_ne]

theorem decode_st (h : opclassOf c.opcode = opcSt) :
    c.decode n w = c.storeArm { n with keepOp := 0, cpuDataAck := false } w
      (stArm c.opcode c.immediate) := by
  simp [Cpu.decode, h, opc_ne]

theorem decode_stx (h : opclassOf c.opcode = opcStx) :
    c.decode n w = c.storeArm { n with keepOp := 0, cpuDataAck := false } w
      (stxArm c.opcode c.srcReg) := by
  simp [Cpu.decode, h, opc_ne]

theorem decode_jmp (h : opclassOf c.opcode = opcJmp) :
    c.decode n w = c.opcJmpArm { n with keepOp := 0, cpuDataAck := false } := by
  simp [Cpu.decode, h, opc_ne]

theorem decode_res (h : opclassOf c.opcode = opcRes) :
    c.decode n w = { n with keepOp := 0, cpuDataAck := false }.fault := by
  simp [Cpu.decode, h, opc_ne]

/-- The two arithmetic classes read their tables at the machine's operands. -/
theorem decode_alu (h : Accepted m c) (halu : isAlu c.instruction) (hs : c.stateNext = .decode) :
    c.decode n w = c.aluArm { n with keepOp := 0, cpuDataAck := false } w
      (m.aluWork c.instruction).div (m.aluWork c.instruction).shift
      (m.aluWork c.instruction).keep (m.aluWork c.instruction).res := by
  rcases halu with hcls | hcls <;>
    simp [Cpu.decode, h.opcode, hcls, opc_ne, hs, Machine.aluWork, h.dstReg, h.srcReg,
      Cpu.immediate]

theorem Accepted.step_aluArm (h : Accepted m s.cpu) (halu : isAlu s.cpu.instruction)
    (hs : s.cpu.stateNext = .decode) (hr : i.resetNInt = true) :
    (s.step i).cpu = s.cpu.aluArm
      { { s.cpu with ticks := s.cpu.ticks + 1 } with keepOp := 0, cpuDataAck := false }
      (s.wires i) (m.aluWork s.cpu.instruction).div (m.aluWork s.cpu.instruction).shift
      (m.aluWork s.cpu.instruction).keep (m.aluWork s.cpu.instruction).res := by
  rw [step_cpu hr, run_decode h.holds.halt h.rejects hs, decode_alu h halu hs]

/-! A division or a shift is asked for until its unit has answered. -/

section AluArm

variable {shift : Option ShiftRequest} {keep : BitVec 64 → BitVec 64} {res : Option (BitVec 64)}

theorem aluArm_div (q : DivRequest) (ht : c.cpuDiv64Ack = false) :
    c.aluArm n w (some q) shift keep res
      = { n with cpuDiv64Ack := false, div64Dividend := q.dividend, div64Divisor := q.divisor,
                 stateNext := .divPending, div64Stb := true } := by
  rw [Cpu.aluArm, ht]
  rfl

theorem aluArm_divDone (q : DivRequest) (ht : c.cpuDiv64Ack = true) :
    c.aluArm n w (some q) shift keep res
      = { n with cpuDiv64Ack := false,
                 regs := c.regs.write c.dst
                   (if q.wantsRemainder then w.div64Remainder else w.div64Quotient)
        }.advance w c.stateNext := by
  rw [Cpu.aluArm, ht]
  rfl

theorem aluArm_shift (q : ShiftRequest) (hack : w.arsh64Ack = false) :
    c.aluArm n w none (some q) keep res
      = { n with cpuDiv64Ack := false, arsh64Value := q.value, arsh64Shift := q.shift,
                 arsh64Arith := q.arith, arsh64Left := q.left, arsh64Stb := true } := by
  rw [Cpu.aluArm, hack]
  rfl

theorem aluArm_shiftDone (q : ShiftRequest) (hack : w.arsh64Ack = true) :
    c.aluArm n w none (some q) keep res
      = { n with cpuDiv64Ack := false, regs := c.regs.write c.dst (keep w.arsh64Out),
                 arsh64Stb := false }.advance w q.temp := by
  rw [Cpu.aluArm, hack]
  rfl

end AluArm

end Decode

/-- A word that has been accepted is carried out by `dispatch`. -/
theorem Accepted.exec (h : Accepted m c) :
    m.exec c.instruction = m.dispatch c.instruction := by
  simp [Machine.exec, h.holds.running, h.accepted, h.upper]

end VeBpf
