import VeBpf.Proof.Step

/-!
# Instructions that take several cycles

Loads, stores, divisions, shifts and calls, cycle by cycle. A load or store that
the host interrupts goes back to the start of its access; all other units take no
notice of `csr_ctl[1]`.
-/

namespace VeBpf

open ByteMem

variable {m m' : Machine} {s : Sys} {c n : Cpu} {i : Inputs} {hi lo : Nat}

/-! ## Loads and stores -/

section Data

/-- While the acknowledge is not visible the core holds its strobe. -/
theorem step_dataFetch_wait (hh : s.cpu.halt = false) (hrej : s.cpu.rejects = false)
    (hs : s.cpu.stateNext = .dataFetch) (hr : i.resetNInt = true)
    (hack : s.dataMem.ack = false ∨ i.csrCtl1 = true) :
    (s.step i).cpu = { { s.cpu with ticks := s.cpu.ticks + 1 } with dataStb := true } := by
  have hwire : (s.wires i).dataAck = false := by
    rcases hack with hack | hack <;> simp [Sys.wires, hack]
  rw [step_cpu hr, run_dataFetch hh hrej hs, Cpu.dataFetch, hwire]
  rfl

theorem step_dataFetch_ack (ha : Accepted m s.cpu) (hs : s.cpu.stateNext = .dataFetch)
    (hr : i.resetNInt = true) (hc : i.csrCtl1 = false) (hack : s.dataMem.ack = true) :
    (s.step i).cpu = { { s.cpu with ticks := s.cpu.ticks + 1 } with
      dataStb := false, dataWe := false, stateNext := .decode, cpuDataAck := true } := by
  have hwire : (s.wires i).dataAck = true := by simp [Sys.wires, hack, hc]
  rw [step_cpu hr, run_dataFetch ha.holds.halt ha.rejects hs, Cpu.dataFetch, hwire]
  rfl

/-- A load goes on while the core changes nothing but its handshake. -/
theorem Loading.keep {stb taken : Bool} {st : CpuState} (h : Loading m s) (hr : i.resetNInt = true)
    (hcpu : (s.step i).cpu = { { s.cpu with ticks := s.cpu.ticks + 1 } with
      dataStb := stb, dataWe := false, stateNext := st, cpuDataAck := taken }) :
    Loading m (s.step i) where
  accepted := h.accepted.keep hcpu rfl rfl rfl h.accepted.keepOp rfl rfl rfl
  div := h.div.keep hcpu rfl rfl
  shift := h.shift.keep hr hcpu rfl
  call := h.call.keep hr hcpu rfl rfl rfl
  cls := by rw [hcpu]; exact h.cls
  we := by rw [hcpu]

/-- **A load waits** with its strobe up, `j` edges from the acknowledge. -/
theorem Loading.waits {own : Prop} {j : Nat} (h : Loading m s) (hr : i.resetNInt = true)
    (hs : s.cpu.stateNext = .dataFetch) (hadr : s.cpu.dataAdr = m.loadAddress s.cpu.instruction)
    (ht : s.cpu.cpuDataAck = false) (hack : s.dataMem.ack = false ∨ i.csrCtl1 = true)
    (hram : (s.step i).dataMem.ReadAt m.mem (m.loadAddress s.cpu.instruction) j)
    (hle : 2 ≤ hi) (hlt : own → 2 + j < hi + lo) : Move m s (s.step i) own .busy hi lo := by
  have hcpu := step_dataFetch_wait h.accepted.holds.halt h.accepted.rejects hs hr hack
  have hinstr : (s.step i).cpu.instruction = s.cpu.instruction := by rw [hcpu]
  have hkeep : Loading m (s.step i) := h.keep hr (hcpu.trans (by rw [← h.we]))
  refine Move.stay 2 j (Phase.load j hkeep ?_ ?_ ?_ ?_ ?_) hinstr hle hlt
  · rw [hcpu]; exact hs
  · rw [hcpu]
  · rw [hinstr, hcpu]; exact hadr
  · rw [hcpu]; exact ht
  · rw [hinstr]; exact hram

theorem step_loadStart {own : Prop} (h : Loading m s)
    (hs : s.cpu.stateNext = .dataFetch) (hstb : s.cpu.dataStb = false)
    (hadr : s.cpu.dataAdr = m.loadAddress s.cpu.instruction) (ht : s.cpu.cpuDataAck = false)
    (hram : s.dataMem.Idle m.mem) (hr : i.resetNInt = true) :
    Move m s (s.step i) own .busy 3 10 := by
  have hidle : (s.step i).dataMem.Idle m.mem := by
    cases hc : i.csrCtl1
    · rw [ram_step_own hr hc, hstb]
      exact hram.step _ _ _ _
    · rw [← hram.holds]
      exact ram_step_host hr hc
  exact h.waits hr hs hadr ht (Or.inl hram.ack) (RamModule.ReadAt.idle hidle) (by omega)
    fun _ => by omega

/-- The edge that sees the acknowledge of a load. -/
theorem step_loadAck {own : Prop} (h : Loading m s) (hs : s.cpu.stateNext = .dataFetch)
    (hstb : s.cpu.dataStb = true) (hadr : s.cpu.dataAdr = m.loadAddress s.cpu.instruction)
    (hram : s.dataMem.ReadAt m.mem (m.loadAddress s.cpu.instruction) 0)
    (hr : i.resetNInt = true) (hc : i.csrCtl1 = false) :
    Move m s (s.step i) own .busy 2 0 := by
  have hack : s.dataMem.ack = true := hram.ack_iff.mpr rfl
  have hcpu := step_dataFetch_ack h.accepted hs hr hc hack
  have hinstr : (s.step i).cpu.instruction = s.cpu.instruction := by rw [hcpu]
  have hstep := ram_step_own (s := s) hr hc
  rw [hstb, hadr, h.we, RamModule.step_of_ack hack (fun hf => by cases hf)] at hstep
  have hgot := hram.collected
  refine Move.stay 1 0 (Phase.loadDone (h.keep hr hcpu) ?_ ?_ ?_ ?_ ?_ ?_
    (by rw [hstep]; exact hack)) hinstr (by omega) (fun _ => by omega)
  · rw [hcpu]
  · rw [hcpu]
  · rw [hcpu]
  · rw [hstep]; exact hram.settled.2
  · rw [hstep, RamModule.settled_of_we1 rfl]; exact hram.settled.2
  · rw [hinstr, hstep]
    exact ⟨hgot.datR0, hgot.datR2, hgot.datR4, hgot.datR8⟩

/-- **One edge of a load in progress.** -/
theorem step_load {own : Prop} (hown : own → i.csrCtl1 = false) {j : Nat} (h : Loading m s)
    (hs : s.cpu.stateNext = .dataFetch) (hstb : s.cpu.dataStb = true)
    (hadr : s.cpu.dataAdr = m.loadAddress s.cpu.instruction) (ht : s.cpu.cpuDataAck = false)
    (hram : s.dataMem.ReadAt m.mem (m.loadAddress s.cpu.instruction) j)
    (hr : i.resetNInt = true) : Move m s (s.step i) own .busy 2 j := by
  cases hc : i.csrCtl1 with
  | true =>
      -- the host takes the memory: the access starts again
      have hidle : (s.step i).dataMem.Idle m.mem := by
        rw [← hram.settled.1]
        exact ram_step_host hr hc
      exact h.waits hr hs hadr ht (Or.inr hc) (RamModule.ReadAt.idle hidle) (by omega)
        fun ho => by rw [hown ho] at hc; cases hc
  | false =>
      cases j with
      | zero => exact step_loadAck h hs hstb hadr hram hr hc
      | succ j =>
          have hack : s.dataMem.ack = false := by
            cases hk : s.dataMem.ack
            · rfl
            · exact absurd (hram.ack_iff.mp hk) (by omega)
          refine h.waits (j := j) hr hs hadr ht (Or.inl hack) ?_ (by omega) fun _ => by omega
          rw [ram_step_own hr hc, hstb, hadr, h.we]
          exact hram.step _ _

/-- The four output registers are the four load widths. -/
theorem ldxArm_eq {op : BitVec 8} {mem : BitVec 11 → BitVec 8} {p : BitVec 11}
    (h : s.dataMem.Collected mem p 8) :
    ldxArm op (s.wires i) = (loadWidth op).map (loadLE 64 mem p) := by
  have h0 : (s.wires i).dataDatR0 = loadLE 8 mem p 1 := h.datR0
  have h2 : (s.wires i).dataDatR2 = loadLE 16 mem p 2 := h.datR2
  have h4 : (s.wires i).dataDatR4 = loadLE 32 mem p 4 := h.datR4
  have h8 : (s.wires i).dataDatR8 = loadLE 64 mem p 8 := h.datR8
  unfold ldxArm loadWidth
  rw [h0, h2, h4, h8, setWidth_loadLE mem p (by omega) (by omega),
    setWidth_loadLE mem p (by omega) (by omega), setWidth_loadLE mem p (by omega) (by omega)]
  split_ifs <;> rfl

/-- With the strobe down the memory comes to rest on what it holds. -/
theorem idle_after_access {mem : BitVec 11 → BitVec 8} (hr : i.resetNInt = true)
    (hstb : s.cpu.dataStb = false) (hram : s.dataMem.mem = mem)
    (hland : s.dataMem.settled = mem) : (s.step i).dataMem.Idle mem := by
  cases hc : i.csrCtl1
  · rw [ram_step_own hr hc, hstb]
    have hidle := RamModule.idle_of_release s.dataMem s.cpu.dataWe s.cpu.dataAdr s.cpu.dataWw
      s.cpu.dataDatW
    rwa [hland] at hidle
  · rw [← hram]
    exact ram_step_host hr hc

/-- **The cycle in which a load writes its register.** -/
theorem step_loadDone {own : Prop} (h : Loading m s) (hs : s.cpu.stateNext = .decode)
    (hstb : s.cpu.dataStb = false) (ht : s.cpu.cpuDataAck = true)
    (hram : s.dataMem.mem = m.mem) (hland : s.dataMem.settled = m.mem)
    (hgot : s.dataMem.Collected m.mem (m.loadAddress s.cpu.instruction) 8)
    (hr : i.resetNInt = true) : Move m s (s.step i) own .busy 1 0 := by
  have ha := h.accepted
  have hrun : (s.step i).cpu = s.cpu.opcLdxArm
      { { s.cpu with ticks := s.cpu.ticks + 1 } with keepOp := 0, cpuDataAck := false }
      (s.wires i) := by
    rw [step_cpu hr, run_decode ha.holds.halt ha.rejects hs, decode_ldx (by rw [ha.opcode, h.cls])]
  have heffect : m.exec s.cpu.instruction = m.load s.cpu.instruction := by
    rw [ha.exec, Machine.dispatch_ldx h.cls]
  have hidle := idle_after_access hr hstb hram hland
  rw [Cpu.opcLdxArm, ht, ha.opcode, ldxArm_eq hgot] at hrun
  rw [Machine.load] at heffect
  cases hwidth : loadWidth (opcodeOf s.cpu.instruction) with
  | none =>
      rw [hwidth] at hrun heffect
      exact stop_of_fail hr heffect hrun rfl rfl ha.holds.regs hstb hidle h.call h.call.stb rfl rfl
  | some k =>
      rw [hwidth] at hrun heffect
      refine finish (Or.inr rfl) ha.onWord heffect rfl hrun hs rfl ?_ ?_ ?_ ?_ ?_
      · exact ha.holds_set ha.holds.halt ha.holds.error rfl rfl
      · exact ⟨by rw [hrun]; exact hstb, by rw [hrun]; exact h.we, by rw [hrun]; rfl, hidle⟩
      · exact h.div.keep hrun rfl rfl
      · exact h.shift.keep hr hrun rfl
      · exact (h.call.keep hr hrun rfl rfl rfl).congr rfl

/-! A store runs the same way with the write machine in place of the read machine. -/

theorem Storing.keep {ww : BitVec 4} {v : BitVec 64} {stb we taken : Bool} {st : CpuState}
    (h : Storing m s ww v) (hr : i.resetNInt = true)
    (hcpu : (s.step i).cpu = { { s.cpu with ticks := s.cpu.ticks + 1 } with
      dataStb := stb, dataWe := we, stateNext := st, cpuDataAck := taken }) :
    Storing m (s.step i) ww v where
  accepted := h.accepted.keep hcpu rfl rfl rfl h.accepted.keepOp rfl rfl rfl
  div := h.div.keep hcpu rfl rfl
  shift := h.shift.keep hr hcpu rfl
  call := h.call.keep hr hcpu rfl rfl rfl
  cls := by rw [hcpu]; exact h.cls
  effect := by rw [hcpu]; exact h.effect
  width := h.width

theorem StorePort.wait {ww : BitVec 4} {v : BitVec 64} (h : StorePort m s.cpu ww v)
    (hcpu : (s.step i).cpu = { { s.cpu with ticks := s.cpu.ticks + 1 } with dataStb := true }) :
    StorePort m (s.step i).cpu ww v := by
  rw [hcpu]
  exact ⟨h.adr, h.we, h.ww, h.dat, h.taken⟩

/-- **A store waits** with its strobe up, `j` edges from the acknowledge. -/
theorem Storing.waits {own : Prop} {ww : BitVec 4} {v : BitVec 64} {j : Nat}
    (h : Storing m s ww v) (hr : i.resetNInt = true) (hs : s.cpu.stateNext = .dataFetch)
    (hport : StorePort m s.cpu ww v) (hack : s.dataMem.ack = false ∨ i.csrCtl1 = true)
    (hram : (s.step i).dataMem.WriteAt m.mem (m.storeAddress s.cpu.instruction) v ww.toNat j)
    (hle : 2 ≤ hi) (hlt : own → 2 + j < hi + lo) : Move m s (s.step i) own .busy hi lo := by
  have hcpu := step_dataFetch_wait h.accepted.holds.halt h.accepted.rejects hs hr hack
  have hinstr : (s.step i).cpu.instruction = s.cpu.instruction := by rw [hcpu]
  refine Move.stay 2 j (Phase.store ww v j (h.keep hr hcpu) ?_ ?_ (hport.wait hcpu) ?_)
    hinstr hle hlt
  · rw [hcpu]; exact hs
  · rw [hcpu]
  · rw [hinstr]; exact hram

theorem step_storeStart {own : Prop} {ww : BitVec 4} {v : BitVec 64} (h : Storing m s ww v)
    (hs : s.cpu.stateNext = .dataFetch) (hstb : s.cpu.dataStb = false)
    (hport : StorePort m s.cpu ww v) (hram : s.dataMem.Idle m.mem) (hr : i.resetNInt = true) :
    Move m s (s.step i) own .busy 3 10 := by
  have hidle := idle_after_access hr hstb hram.holds hram.landed
  have hw := h.width
  exact h.waits hr hs hport (Or.inl hram.ack)
    (RamModule.writeAt_of_idle hidle (Stored.refl _ _ _ _)) (by omega) fun _ => by omega

/-- The edge that sees the acknowledge of a store. -/
theorem step_storeAck {own : Prop} {ww : BitVec 4} {v : BitVec 64} (h : Storing m s ww v)
    (hs : s.cpu.stateNext = .dataFetch) (hstb : s.cpu.dataStb = true)
    (hport : StorePort m s.cpu ww v)
    (hram : s.dataMem.WriteAt m.mem (m.storeAddress s.cpu.instruction) v ww.toNat 0)
    (hr : i.resetNInt = true) (hc : i.csrCtl1 = false) :
    Move m s (s.step i) own .busy 2 0 := by
  have hack : s.dataMem.ack = true := by rw [hram.ack]; rfl
  have hflag : s.dataMem.writeCompleteFlag = true := by rw [hram.flag]; rfl
  have hcpu := step_dataFetch_ack h.accepted hs hr hc hack
  have hinstr : (s.step i).cpu.instruction = s.cpu.instruction := by rw [hcpu]
  have hstep := ram_step_own (s := s) hr hc
  rw [hstb, hport.adr, hport.we, hport.ww, hport.dat,
    RamModule.step_of_ack hack (fun _ => hflag)] at hstep
  refine Move.stay 1 0 (Phase.storeDone ww v (h.keep hr hcpu) ?_ ?_ ?_ ?_ ?_ ?_
    (by rw [hstep]; exact hack)) hinstr (by omega) (fun _ => by omega)
  · rw [hcpu]
  · rw [hcpu]
  · rw [hcpu]
  · rw [hcpu]
  · rw [hinstr, hstep]; exact hram.stored
  · rw [hstep, RamModule.settled_of_we1 rfl]

/-- **One edge of a store in progress.** -/
theorem step_store {own : Prop} (hown : own → i.csrCtl1 = false) {ww : BitVec 4} {v : BitVec 64}
    {j : Nat} (h : Storing m s ww v) (hs : s.cpu.stateNext = .dataFetch)
    (hstb : s.cpu.dataStb = true) (hport : StorePort m s.cpu ww v)
    (hram : s.dataMem.WriteAt m.mem (m.storeAddress s.cpu.instruction) v ww.toNat j)
    (hr : i.resetNInt = true) : Move m s (s.step i) own .busy 2 j := by
  have hw := h.width
  cases hc : i.csrCtl1 with
  | true =>
      -- the bytes already stored stay, and the store begins again over them
      exact h.waits hr hs hport (Or.inr hc)
        (RamModule.writeAt_of_idle (ram_step_host hr hc) hram.kept) (by omega)
        fun ho => by rw [hown ho] at hc; cases hc
  | false =>
      cases j with
      | zero => exact step_storeAck h hs hstb hport hram hr hc
      | succ j =>
          have hack : s.dataMem.ack = false := by rw [hram.ack]; rfl
          refine h.waits (j := j) hr hs hport (Or.inl hack) ?_ (by omega) fun _ => by omega
          rw [ram_step_own hr hc, hstb, hport.adr, hport.we, hport.ww, hport.dat]
          exact hram.step hw.2 rfl hw.1

theorem step_storeDone {own : Prop} {ww : BitVec 4} {v : BitVec 64} (h : Storing m s ww v)
    (hs : s.cpu.stateNext = .decode) (hstb : s.cpu.dataStb = false) (hwe : s.cpu.dataWe = false)
    (ht : s.cpu.cpuDataAck = true)
    (hram : s.dataMem.mem = storeLE m.mem (m.storeAddress s.cpu.instruction) v ww.toNat)
    (hland : s.dataMem.settled = s.dataMem.mem) (hr : i.resetNInt = true) :
    Move m s (s.step i) own .busy 1 0 := by
  have ha := h.accepted
  have hcpu : (s.step i).cpu
      = { { s.cpu with ticks := s.cpu.ticks + 1 } with keepOp := 0, cpuDataAck := false }.advance
          (s.wires i) s.cpu.stateNext := by
    rw [step_cpu hr, run_decode ha.holds.halt ha.rejects hs]
    rcases h.cls with hcls | hcls
    · rw [decode_st (by rw [ha.opcode, hcls]), Cpu.storeArm, ht]
      rfl
    · rw [decode_stx (by rw [ha.opcode, hcls]), Cpu.storeArm, ht]
      rfl
  have hexec : m.exec s.cpu.instruction
      = { m with mem := storeLE m.mem (m.storeAddress s.cpu.instruction) v ww.toNat }.next := by
    rw [ha.exec, h.effect]
    rfl
  have hidle := idle_after_access hr hstb hram (hland.trans hram)
  refine finish (Or.inr rfl) ha.onWord hexec rfl hcpu hs rfl ?_ ?_ ?_ ?_ ?_
  · refine ⟨ha.holds.running, ha.holds.noError, ha.holds.halt, ha.holds.error, ha.holds.regs, ?_,
      ?_⟩
    · simp [Machine.next, ha.upper]
    · intro d hd
      simp [Machine.next, ha.upper] at hd
  · exact ⟨by rw [hcpu]; exact hstb, by rw [hcpu]; exact hwe, by rw [hcpu]; rfl, hidle⟩
  · exact h.div.keep hcpu rfl rfl
  · exact h.shift.keep hr hcpu rfl
  · exact (h.call.keep hr hcpu rfl rfl rfl).congr rfl

end Data

/-! ## Divisions -/

section Div

/-- A division goes on while the core changes nothing but its handshake. -/
theorem Dividing.keep {q : DivRequest} {st : CpuState} {stb ack : Bool} (h : Dividing m s q)
    (hr : i.resetNInt = true)
    (hcpu : (s.step i).cpu = { { s.cpu with ticks := s.cpu.ticks + 1 } with
      stateNext := st, div64Stb := stb, cpuDiv64Ack := ack }) :
    Dividing m (s.step i) q ∧ (s.step i).cpu.instruction = s.cpu.instruction := by
  have ha := h.accepted
  have hinstr : (s.step i).cpu.instruction = s.cpu.instruction := by rw [hcpu]
  refine ⟨⟨ha.keep hcpu rfl rfl rfl ha.keepOp rfl rfl rfl, h.data.keep hr hcpu rfl rfl h.data.taken,
    h.shift.keep hr hcpu rfl, h.call.keep hr hcpu rfl rfl rfl, ?_, ?_⟩, hinstr⟩
  · rw [hinstr]; exact h.cls
  · rw [hinstr]; exact h.request

/-- The edge at which the divider takes up its operands. -/
theorem step_divStart {own : Prop} {q : DivRequest} (h : Dividing m s q)
    (hs : s.cpu.stateNext = .divPending) (hstb : s.cpu.div64Stb = true)
    (ht : s.cpu.cpuDiv64Ack = false) (hdividend : s.cpu.div64Dividend = q.dividend)
    (hdivisor : s.cpu.div64Divisor = q.divisor) (hr : i.resetNInt = true) :
    Move m s (s.step i) own .busy 67 0 := by
  have ha := h.accepted
  have hcpu : (s.step i).cpu
      = { { s.cpu with ticks := s.cpu.ticks + 1 } with div64Stb := false } := by
    rw [step_cpu hr, run_divPending ha.holds.halt ha.rejects hs, Cpu.divPending, if_pos hstb]
  obtain ⟨hkeep, hinstr⟩ := h.keep hr hcpu
  have hunit : (s.step i).div64 = s.div64.step true q.dividend q.divisor true := by
    simp only [Sys.step, hr, hstb, hdividend, hdivisor]
  -- a zero divisor is answered at once, any other after one cycle for each bit
  by_cases hz : q.divisor = 0#64
  · refine Move.stay 1 0 (Phase.divZero q hkeep ?_ ?_ ?_ hz ?_ ?_) hinstr (by omega)
      (fun _ => by omega)
    · rw [hcpu]; exact hs
    · rw [hcpu]
    · rw [hcpu]; exact ht
    · rw [hunit, hz]; exact (Divider.step_zero _ _).1
    · rw [hunit, hz]; exact (Divider.step_zero _ _).2
  · refine Move.stay (64 + 2) 0 (Phase.divRun q 64 hkeep ?_ ?_ ?_ hz ?_ (by omega)) hinstr
      (by omega) (fun _ => by omega)
    · rw [hcpu]; exact hs
    · rw [hcpu]
    · rw [hcpu]; exact ht
    · rw [hunit]; exact Divider.busy_load _ _ hz

/-- **One edge of a division in progress.** -/
theorem step_divRun {own : Prop} {q : DivRequest} {k : Nat} (h : Dividing m s q)
    (hs : s.cpu.stateNext = .divPending) (hstb : s.cpu.div64Stb = false)
    (ht : s.cpu.cpuDiv64Ack = false) (hz : q.divisor ≠ 0#64)
    (hunit : s.div64.Busy q.dividend q.divisor k) (hk : k ≤ 64) (hr : i.resetNInt = true) :
    Move m s (s.step i) own .busy (k + 2) 0 := by
  have ha := h.accepted
  have hrun : (s.step i).cpu
      = s.cpu.divPending { s.cpu with ticks := s.cpu.ticks + 1 } (s.wires i) := by
    rw [step_cpu hr, run_divPending ha.holds.halt ha.rejects hs]
  have hstep : (s.step i).div64
      = s.div64.step true s.cpu.div64Dividend s.cpu.div64Divisor false := by
    simp only [Sys.step, hr, hstb]
  have hack := hunit.ack_iff
  have hwire : (s.wires i).div64Ack = s.div64.ack := rfl
  have herr : (s.wires i).div64Err = false := hunit.err
  rw [Cpu.divPending, if_neg (by simp [hstb]), hwire, herr] at hrun
  cases k with
  | succ k =>
      have hack' : s.div64.ack = false := by
        cases hb : s.div64.ack
        · rfl
        · exact absurd (hack.mp hb) (by omega)
      rw [hack'] at hrun
      have hcpu : (s.step i).cpu = { s.cpu with ticks := s.cpu.ticks + 1 } := hrun
      obtain ⟨hkeep, hinstr⟩ := h.keep hr hcpu
      refine Move.stay (k + 2) 0 (Phase.divRun q k hkeep ?_ ?_ ?_ hz ?_ (by omega)) hinstr
        (by omega) (fun _ => by omega)
      · rw [hcpu]; exact hs
      · rw [hcpu]; exact hstb
      · rw [hcpu]; exact ht
      · rw [hstep]; exact hunit.step (by omega) (by omega) hz _ _
  | zero =>
      rw [hack.mpr rfl] at hrun
      have hcpu : (s.step i).cpu = { { s.cpu with ticks := s.cpu.ticks + 1 } with
          stateNext := .decode, cpuDiv64Ack := true } := hrun
      obtain ⟨hkeep, hinstr⟩ := h.keep hr hcpu
      refine Move.stay 1 0 (Phase.divDone q hkeep ?_ ?_ ?_ hz ?_) hinstr (by omega)
        (fun _ => by omega)
      · rw [hcpu]
      · rw [hcpu]; exact hstb
      · rw [hcpu]
      · rw [hstep, Divider.step_of_ack (hack.mpr rfl)]; exact hunit

/-- The source tells `MOD` from `DIV` by the high nibble of the opcode. -/
theorem aluWork_mod {x : BitVec 64} {q : DivRequest} (h : (m.aluWork x).div = some q) :
    (opcodeOf x &&& 0xf0#8 ≠ ebpfOpMod) ↔ q.wantsRemainder = false := by
  unfold Machine.aluWork aluDiv32 aluDiv64 at h
  dsimp only at h
  split_ifs at h with _ h1 h1 h1 h1 h1 h1 h1 h1 <;> rw [h1] <;> cases h <;> dsimp only <;> decide

/-- **A zero divisor stops the core; `DIV` clears its destination, `MOD` leaves it.** -/
theorem step_divZero {own : Prop} {q : DivRequest} (h : Dividing m s q)
    (hs : s.cpu.stateNext = .divPending) (hstb : s.cpu.div64Stb = false)
    (hz : q.divisor = 0#64) (hack : s.div64.ack = true) (herr : s.div64.err = true)
    (hr : i.resetNInt = true) : Move m s (s.step i) own .busy 1 0 := by
  have ha := h.accepted
  have hrun : (s.step i).cpu
      = s.cpu.divPending { s.cpu with ticks := s.cpu.ticks + 1 } (s.wires i) := by
    rw [step_cpu hr, run_divPending ha.holds.halt ha.rejects hs]
  have hwire : (s.wires i).div64Ack = true := hack
  have hwerr : (s.wires i).div64Err = true := herr
  rw [Cpu.divPending, if_neg (by simp [hstb]), if_pos hwire, if_pos hwerr, ha.opcode] at hrun
  have hexec : m.exec s.cpu.instruction
      = (if q.wantsRemainder then m
          else { m with regs := m.regs.write (dstOf s.cpu.instruction) 0 }).fail := by
    rw [ha.exec, Machine.dispatch_alu h.cls, h.request]
    exact if_pos hz
  have hmod := aluWork_mod h.request
  cases hwant : q.wantsRemainder with
  | true =>
      rw [hwant] at hexec hmod
      have hkind : ¬ (opcodeOf s.cpu.instruction &&& 0xf0#8 ≠ ebpfOpMod) := by
        rw [hmod]; simp
      rw [if_neg hkind] at hrun
      exact stop_of_fail hr hexec hrun rfl rfl ha.holds.regs h.data.stb (h.data.ram_step hr) h.call
        h.call.stb rfl rfl
  | false =>
      -- the quotient's register is written together with the error
      rw [hwant] at hexec hmod
      rw [if_pos (hmod.mpr rfl)] at hrun
      have hregs : s.cpu.regs.write s.cpu.dst 0 = m.regs.write (dstOf s.cpu.instruction) 0 := by
        rw [ha.holds.regs, ha.dst]
      exact stop_of_fail hr hexec hrun rfl rfl hregs h.data.stb (h.data.ram_step hr) h.call
        h.call.stb rfl rfl

/-- **The cycle in which a division writes its register.** -/
theorem step_divDone {own : Prop} {q : DivRequest} (h : Dividing m s q)
    (hs : s.cpu.stateNext = .decode) (hstb : s.cpu.div64Stb = false)
    (ht : s.cpu.cpuDiv64Ack = true) (hz : q.divisor ≠ 0#64)
    (hunit : s.div64.Busy q.dividend q.divisor 0) (hr : i.resetNInt = true) :
    Move m s (s.step i) own .busy 1 0 := by
  have ha := h.accepted
  obtain ⟨hquot, hrem⟩ := hunit.result hz
  have hresult : (if q.wantsRemainder then (s.wires i).div64Remainder
      else (s.wires i).div64Quotient) = q.result := by
    unfold DivRequest.result
    rw [← hquot, ← hrem]
    rfl
  have hcpu : (s.step i).cpu
      = { { { s.cpu with ticks := s.cpu.ticks + 1 } with keepOp := 0, cpuDataAck := false } with
            cpuDiv64Ack := false, regs := s.cpu.regs.write s.cpu.dst q.result }.advance (s.wires i)
          s.cpu.stateNext := by
    rw [ha.step_aluArm h.cls hs hr, h.request, aluArm_divDone q ht, hresult]
  have hexec : m.exec s.cpu.instruction = m.set (dstOf s.cpu.instruction) q.result := by
    rw [ha.exec, Machine.dispatch_alu h.cls, h.request]
    exact if_neg hz
  refine finish (Or.inr rfl) ha.onWord hexec rfl hcpu hs rfl ?_ ?_ ?_ ?_ ?_
  · exact ha.holds_set ha.holds.halt ha.holds.error rfl rfl
  · exact (h.data.keep hr hcpu rfl rfl rfl).congr rfl
  · exact ⟨by rw [hcpu]; exact hstb, by rw [hcpu]; rfl⟩
  · exact h.shift.keep hr hcpu rfl
  · exact (h.call.keep hr hcpu rfl rfl rfl).congr rfl

end Div

/-! ## Shifts -/

section Shift

/-- While the shifter has not acknowledged, `STATE_DECODE` repeats its request. -/
theorem Shifting.again {q : ShiftRequest} (h : Shifting m s q) (hr : i.resetNInt = true)
    (hack : s.arsh64.ack = false) :
    Shifting m (s.step i) q ∧ (s.step i).cpu.instruction = s.cpu.instruction := by
  have ha := h.accepted
  have hwire : (s.wires i).arsh64Ack = false := hack
  have hcpu : (s.step i).cpu
      = { { { s.cpu with ticks := s.cpu.ticks + 1 } with keepOp := 0, cpuDataAck := false } with
            cpuDiv64Ack := false, arsh64Value := q.value, arsh64Shift := q.shift,
            arsh64Arith := q.arith, arsh64Left := q.left, arsh64Stb := true } := by
    rw [ha.step_aluArm h.cls h.state hr, h.noDiv, h.request, aluArm_shift q hwire]
  have hinstr : (s.step i).cpu.instruction = s.cpu.instruction := by rw [hcpu]
  refine ⟨⟨?_, ?_, ?_, ?_, ?_, ?_, ?_, ?_, ?_, ?_, ?_, ?_, ?_⟩, hinstr⟩
  · exact ha.keep hcpu rfl rfl rfl rfl rfl rfl rfl
  · exact h.data.keep hr hcpu rfl rfl rfl
  · exact h.div.keep hcpu rfl h.div.taken.symm
  · exact h.call.keep hr hcpu rfl rfl rfl
  · rw [hinstr]; exact h.cls
  · rw [hinstr]; exact h.noDiv
  · rw [hinstr]; exact h.request
  · rw [hcpu]; exact h.state
  all_goals rw [hcpu]

/-- The shifter sees the request of the core. -/
theorem Shifting.unit_step {q : ShiftRequest} (h : Shifting m s q) (hr : i.resetNInt = true) :
    (s.step i).arsh64 = s.arsh64.step false true q.arith q.left q.value q.shift := by
  simp only [Sys.step, hr, h.stb, h.arith, h.left, h.value, h.shiftBy, Bool.not_true]

theorem step_shiftStart {own : Prop} {q : ShiftRequest} (h : Shifting m s q)
    (hack : s.arsh64.ack = false) (hst : s.arsh64.state = false) (hr : i.resetNInt = true) :
    Move m s (s.step i) own .busy 3 0 := by
  obtain ⟨hagain, hinstr⟩ := h.again (i := i) hr hack
  refine Move.stay 2 0 (Phase.shiftLoaded q hagain ?_) hinstr (by omega) (fun _ => by omega)
  rw [h.unit_step hr]
  exact Shifter.step_start hack hst q

theorem step_shiftLoaded {own : Prop} {q : ShiftRequest} (h : Shifting m s q)
    (hunit : s.arsh64.Loaded q) (hr : i.resetNInt = true) :
    Move m s (s.step i) own .busy 2 0 := by
  obtain ⟨hagain, hinstr⟩ := h.again (i := i) hr hunit.ack
  obtain ⟨hack, hout⟩ := hunit.step true
  refine Move.stay 1 0 (Phase.shiftDone q hagain ?_ ?_) hinstr (by omega) (fun _ => by omega)
  · rw [h.unit_step hr]; exact hack
  · rw [h.unit_step hr]; exact hout

/-- Every shift goes back to `STATE_DECODE`. -/
theorem aluWork_temp {x : BitVec 64} {q : ShiftRequest} (h : (m.aluWork x).shift = some q) :
    q.temp = .decode := by
  unfold Machine.aluWork aluShift32 aluShift64 at h
  dsimp only at h
  split_ifs at h <;> cases h <;> rfl

/-- **The cycle in which a shift writes its register.** -/
theorem step_shiftDone {own : Prop} {q : ShiftRequest} (h : Shifting m s q)
    (hack : s.arsh64.ack = true) (hout : s.arsh64.out = q.result) (hr : i.resetNInt = true) :
    Move m s (s.step i) own .busy 1 0 := by
  have ha := h.accepted
  have hwire : (s.wires i).arsh64Ack = true := hack
  have hwout : (s.wires i).arsh64Out = q.result := hout
  have hcpu : (s.step i).cpu
      = { { { s.cpu with ticks := s.cpu.ticks + 1 } with keepOp := 0, cpuDataAck := false } with
            cpuDiv64Ack := false,
            regs := s.cpu.regs.write s.cpu.dst
              ((m.aluWork s.cpu.instruction).keep q.result),
            arsh64Stb := false }.advance (s.wires i) q.temp := by
    rw [ha.step_aluArm h.cls h.state hr, h.noDiv, h.request, aluArm_shiftDone q hwire, hwout]
  have hexec : m.exec s.cpu.instruction = m.set (dstOf s.cpu.instruction)
      ((m.aluWork s.cpu.instruction).keep q.result) := by
    rw [ha.exec, Machine.dispatch_alu h.cls, h.noDiv, h.request, Machine.arith]
  have hidle := Shifter.step_ack hack s.cpu.arsh64Stb s.cpu.arsh64Arith s.cpu.arsh64Left
    s.cpu.arsh64Value s.cpu.arsh64Shift
  have hunit : (s.step i).arsh64 = s.arsh64.step false s.cpu.arsh64Stb s.cpu.arsh64Arith
      s.cpu.arsh64Left s.cpu.arsh64Value s.cpu.arsh64Shift := by
    simp only [Sys.step, hr, Bool.not_true]
  refine finish (Or.inr rfl) ha.onWord hexec rfl hcpu (aluWork_temp h.request) rfl ?_ ?_ ?_ ?_ ?_
  · exact ha.holds_set ha.holds.halt ha.holds.error rfl rfl
  · exact (h.data.keep hr hcpu rfl rfl rfl).congr rfl
  · exact h.div.keep hcpu rfl h.div.taken.symm
  · exact ⟨by rw [hcpu]; rfl, hunit ▸ hidle.1, hunit ▸ hidle.2⟩
  · exact (h.call.keep hr hcpu rfl rfl rfl).congr rfl

end Shift

/-! ## Calls -/

section Call

/-- The core and the handler in `STATE_CALL_PENDING`. -/
theorem CallingOut.edge (h : CallingOut m s) (hr : i.resetNInt = true) :
    (s.step i).cpu = s.cpu.callPending { s.cpu with ticks := s.cpu.ticks + 1 } (s.wires i)
    ∧ (s.step i).callHandler = s.callHandler.step false s.cpu.callHandlerFunc true
      s.cpu.callHandlerR1 s.cpu.callHandlerR2 := by
  constructor
  · rw [step_cpu hr, run_callPending h.accepted.holds.halt h.accepted.rejects h.state]
  · simp only [Sys.step, hr, h.stb, Bool.not_true]

/-- While the handler has not acknowledged, the core waits. -/
theorem step_callingWait {own : Prop} (h : CallingOut m s) (hr : i.resetNInt = true)
    (hack : s.callHandler.ack = false) :
    Move m s (s.step i) own .busy (s.callHandler.wait s.cpu.callHandlerFunc + 1) 0 := by
  have ha := h.accepted
  obtain ⟨hrun, hunit⟩ := h.edge (i := i) hr
  have hwire : (s.wires i).callHandlerAck = false := hack
  rw [Cpu.callPending, if_neg (by simp [hwire])] at hrun
  have hcpu : (s.step i).cpu = { s.cpu with ticks := s.cpu.ticks + 1 } := hrun
  have hinstr : (s.step i).cpu.instruction = s.cpu.instruction := by rw [hcpu]
  -- the handler is one edge closer to its answer, which bounds the wait
  obtain ⟨hcalling, hlt⟩ := h.handler.step hack
  refine Move.stay ((s.step i).callHandler.wait (s.step i).cpu.callHandlerFunc + 1) 0
    (Phase.call ⟨ha.keep hcpu rfl rfl rfl ha.keepOp rfl rfl rfl,
      h.data.keep hr hcpu rfl rfl h.data.taken, h.div.keep hcpu rfl rfl, h.shift.keep hr hcpu rfl,
      ?_, ?_, ?_, ?_, ?_, ?_, ?_⟩) hinstr ?_ (fun _ => ?_)
  · rw [hinstr]; exact h.op
  · rw [hcpu]; exact h.state
  · rw [hcpu]; exact h.stb
  · rw [hinstr, hcpu]; exact h.func
  · rw [hcpu]; exact h.r1
  · rw [hcpu]; exact h.r2
  · rw [hunit, hcpu]; exact hcalling
  · rw [hunit, hcpu]
    exact Nat.succ_le_succ (Nat.le_of_lt hlt)
  · rw [hunit, hcpu]
    exact Nat.succ_lt_succ hlt

/-- **The cycle in which a call returns**, or stops the core. -/
theorem step_callingDone {own : Prop} (h : CallingOut m s) (hr : i.resetNInt = true)
    (hack : s.callHandler.ack = true) :
    Move m s (s.step i) own .busy (s.callHandler.wait s.cpu.callHandlerFunc + 1) 0 := by
  have ha := h.accepted
  obtain ⟨hrun, hunit⟩ := h.edge (i := i) hr
  obtain ⟨hstore, hret, herr⟩ := h.handler.after hack
  have hcls : opclassOf (opcodeOf s.cpu.instruction) = opcJmp := by rw [h.op]; decide
  have hexec : m.exec s.cpu.instruction = m.callOut s.cpu.instruction := by
    rw [ha.exec, Machine.dispatch_jmp hcls, Machine.jump, if_pos h.op]
  rw [Machine.callOut, ← h.func, ← h.r1, ← h.r2] at hexec
  have hsettled := CallHandler.call_settled m.store s.cpu.callHandlerFunc s.cpu.callHandlerR1
    s.cpu.callHandlerR2
  have hwire : (s.wires i).callHandlerAck = true := hack
  have hwerr : (s.wires i).callHandlerErr = !CallStore.known s.cpu.callHandlerFunc := herr
  have hwret : (s.wires i).callHandlerRet = (m.store.call s.cpu.callHandlerFunc
      s.cpu.callHandlerR1 s.cpu.callHandlerR2).ret := hret
  rw [← hunit] at hstore
  rw [Cpu.callPending, if_pos hwire, hwerr, hwret] at hrun
  cases hknown : CallStore.known s.cpu.callHandlerFunc with
  | false =>
      -- an unknown function is acknowledged with an error
      rw [hknown] at hexec hrun
      have hcpu : (s.step i).cpu = { { s.cpu with ticks := s.cpu.ticks + 1 } with
          callHandlerStb := false }.fault := hrun
      have hidle := h.data.ram_step (i := i) hr
      refine Move.stop (Phase.stopped ⟨?_, ?_, ?_, ?_, ?_, ?_, ⟨?_, ?_, ?_⟩⟩)
      · rw [hexec]; rfl
      · rw [hcpu]; rfl
      · rw [hexec, hcpu]; rfl
      · rw [hexec, hcpu]; exact ha.holds.regs
      · rw [hcpu]; exact h.data.stb
      · rw [hexec]; exact hidle
      · rw [hcpu]; rfl
      · rw [hexec]; exact hstore
      · rw [hexec, hcpu]; exact hsettled
  | true =>
      rw [hknown] at hexec hrun
      have hcpu : (s.step i).cpu = { { s.cpu with ticks := s.cpu.ticks + 1 } with
          callHandlerStb := false, regs := s.cpu.regs.write 0 (m.store.call
            s.cpu.callHandlerFunc s.cpu.callHandlerR1 s.cpu.callHandlerR2).ret }.advance
          (s.wires i) .decode := hrun
      refine finish (Or.inr rfl) ha.onWord hexec rfl hcpu rfl rfl ?_ ?_ ?_ ?_ ?_
      · refine ⟨ha.holds.running, ha.holds.noError, ha.holds.halt, ha.holds.error, ?_, ?_, ?_⟩
        · show s.cpu.regs.write 0 _ = m.regs.write 0 _
          rw [ha.holds.regs]
        · show s.cpu.keepOp = if m.upper.isSome then ebpfOpLddw else 0
          exact ha.holds.keepOp
        · intro d hd
          exact ha.holds.keepDst d hd
      · exact (h.data.keep hr hcpu rfl rfl h.data.taken).congr rfl
      · exact h.div.keep hcpu rfl rfl
      · exact h.shift.keep hr hcpu rfl
      · exact ⟨by rw [hcpu]; rfl, hstore, by rw [hcpu]; exact hsettled⟩

/-- **One edge of a call.** The handler's last edge falls into the cycle in which the core
takes the result. -/
theorem step_calling {own : Prop} (h : CallingOut m s) (hr : i.resetNInt = true) :
    Move m s (s.step i) own .busy (s.callHandler.wait s.cpu.callHandlerFunc + 1) 0 := by
  cases hack : s.callHandler.ack with
  | false => exact step_callingWait h hr hack
  | true => exact step_callingDone h hr hack

end Call

/-! ## All phases -/

/-- A halted core does nothing more. -/
theorem step_stopped (h : Stopped m s) (hr : i.resetNInt = true) : Stopped m (s.step i) := by
  have hcpu : (s.step i).cpu = { s.cpu with stateNext := .halt } := by
    rw [step_cpu hr, Cpu.run, if_pos h.halt]
  have hidle := idle_after_access hr h.stb h.ram.holds h.ram.landed
  exact ⟨h.halted, by rw [hcpu]; exact h.halt, by rw [hcpu]; exact h.error,
    by rw [hcpu]; exact h.regs, by rw [hcpu]; exact h.stb, hidle,
    h.call.keep hr hcpu rfl rfl rfl⟩

/-- One edge of the work on a word, where only an access asks for the data memory. -/
theorem Phase.step_busy {own : Prop} (h : Phase m s .busy hi lo) (hr : i.resetNInt = true)
    (hown : own → opclassOf (opcodeOf s.cpu.instruction) = opcLdx
      ∨ opclassOf (opcodeOf s.cpu.instruction) = opcSt
      ∨ opclassOf (opcodeOf s.cpu.instruction) = opcStx → i.csrCtl1 = false) :
    Move m s (s.step i) own .busy hi lo := by
  cases h with
  | loadStart h hs hstb hadr ht hram => exact step_loadStart h hs hstb hadr ht hram hr
  | load j h hs hstb hadr ht hram =>
      exact step_load (fun ho => hown ho (Or.inl h.cls)) h hs hstb hadr ht hram hr
  | loadDone h hs hstb ht hram hland hgot _ => exact step_loadDone h hs hstb ht hram hland hgot hr
  | storeStart ww v h hs hstb hport hram => exact step_storeStart h hs hstb hport hram hr
  | store ww v j h hs hstb hport hram =>
      exact step_store (fun ho => hown ho (Or.inr h.cls)) h hs hstb hport hram hr
  | storeDone ww v h hs hstb hwe ht hram hland _ =>
      exact step_storeDone h hs hstb hwe ht hram hland hr
  | divStart q h hs hstb ht hd1 hd2 => exact step_divStart h hs hstb ht hd1 hd2 hr
  | divRun q k h hs hstb ht hz hunit hk => exact step_divRun h hs hstb ht hz hunit hk hr
  | divZero q h hs hstb ht hz hack herr => exact step_divZero h hs hstb hz hack herr hr
  | divDone q h hs hstb ht hz hunit => exact step_divDone h hs hstb ht hz hunit hr
  | shiftStart q h hack hst => exact step_shiftStart h hack hst hr
  | shiftLoaded q h hunit => exact step_shiftLoaded h hunit hr
  | shiftDone q h hack hout => exact step_shiftDone h hack hout hr
  | call h => exact step_calling h hr

/-- **Every edge with reset released moves the core on**: it comes closer to the end of the
current word, or carries the word out exactly as the machine does. -/
theorem Phase.step {st : Stage} (h : Phase m s st hi lo) (hr : i.resetNInt = true) :
    Move m s (s.step i) (i.csrCtl1 = false) st hi lo := by
  cases st with
  | fetch => cases h with | fetch rest hs hip => exact step_fetch rest hs hip hr
  | delay => cases h with | delay rest hs ht hon => exact step_delay rest hs ht hon hr
  | decode => cases h with | decode rest hs hon => exact step_decode rest hs hon hr
  | busy => exact h.step_busy hr fun hc _ => hc
  | stopped =>
      have hstop := h.stopped_inv
      obtain ⟨rfl, rfl⟩ : hi = 0 ∧ lo = 0 := by cases h with | stopped => exact ⟨rfl, rfl⟩
      refine Move.stop (Phase.stopped ?_)
      rw [Machine.exec, if_pos hstop.halted]
      exact step_stopped hstop hr

end VeBpf
