import VeBpf.Proof.Instructions
import VeBpf.Proof.Sequencing
import VeBpf.Proof.Unexecuted

/-!
# The host and the data memory

While reset is released the host cannot reach the data memory: at the edges at
which `csr_ctl[1]` switches the port over, the memory is held in reset. What the
host can do is make the core wait. A core that gets the memory for eleven edges in
a row, again and again, runs as if it had it all the time; one that does not may
wait for ever.
-/

namespace VeBpf

/-- The same inputs but for the external data-memory port. -/
structure Inputs.SameButPort (i i' : Inputs) : Prop where
  resetN : i'.resetN = i.resetN
  csrCtl : i'.csrCtl = i.csrCtl
  r1 : i'.r1 = i.r1
  r2 : i'.r2 = i.r2
  r3 : i'.r3 = i.r3
  r4 : i'.r4 = i.r4
  r5 : i'.r5 = i.r5
  progAddr : i'.vebpfProgAddrIn = i.vebpfProgAddrIn
  progData : i'.vebpfProgDataIn = i.vebpfProgDataIn
  progWrite : i'.vebpfProgWriteEnableIn = i.vebpfProgWriteEnableIn
  progReset : i'.vebpfProgResetIn = i.vebpfProgResetIn
  runNext : i'.runNextSelectedRuleEn = i.runNextSelectedRuleEn
  ipNextRule : i'.ipNextRule = i.ipNextRule

namespace Sys

variable {i i' : Inputs} {s s₀ : Sys} {inp inp' : Nat → Inputs}

/-- **Nothing of the port gets into the design while reset is released.** -/
theorem step_sameButPort (h : i.SameButPort i') (hr : i.resetNInt = true) (s : Sys) :
    s.step i' = s.step i := by
  have hr' : i'.resetNInt = true := by
    rw [← hr, Inputs.resetNInt, Inputs.resetNInt, h.resetN, h.csrCtl]
  have hc : i'.csrCtl1 = i.csrCtl1 := by rw [Inputs.csrCtl1, Inputs.csrCtl1, h.csrCtl]
  have hwires : s.wires i' = s.wires i := by
    unfold wires
    rw [hc]
  have hdata : s.dataMemStep i' = s.dataMemStep i := by
    unfold dataMemStep
    rw [hc, hr, hr']
    cases i.csrCtl1 <;> rfl
  unfold Sys.step
  rw [hdata, hwires, hr, hr', h.progAddr, h.progData, h.progWrite, h.progReset, Cpu.step, Cpu.step,
    hr, hr']
  simp

theorem run_sameButPort (h : ∀ t, (inp t).SameButPort (inp' t))
    (hr : ∀ t, (inp t).resetNInt = true) (s : Sys) (t : Nat) :
    run inp' s t = run inp s t := by
  induction t with
  | zero => rfl
  | succ t ih => rw [run, run, ih, step_sameButPort (h t) (hr t)]

/-! ## Waiting for the memory -/

/-- A load waits with `j` edges to go before it is acknowledged. -/
structure Waiting (s : Sys) (j : Nat) : Prop where
  halt : s.cpu.halt = false
  accepted : s.cpu.rejects = false
  state : s.cpu.stateNext = .dataFetch
  stb : s.cpu.dataStb = true
  we : s.cpu.dataWe = false
  ram : s.dataMem.ReadAt s.dataMem.mem s.cpu.dataAdr j

theorem Waiting.step {j : Nat} (h : Waiting s (j + 1)) (hr : i.resetNInt = true)
    (hc : i.csrCtl1 = false) : Waiting (s.step i) j := by
  have hack : s.dataMem.ack = false := by
    cases hk : s.dataMem.ack
    · rfl
    · exact absurd (h.ram.ack_iff.mp hk) (by omega)
  have hcpu := step_dataFetch_wait h.halt h.accepted h.state hr (Or.inl hack)
  have hread := h.ram.step s.cpu.dataWw s.cpu.dataDatW
  have hram : (s.step i).dataMem = s.dataMem.step false true s.cpu.dataAdr false s.cpu.dataWw
      s.cpu.dataDatW := by
    rw [ram_step_own hr hc, h.stb, h.we]
  refine ⟨by rw [hcpu]; exact h.halt, by rw [hcpu]; exact h.accepted, by rw [hcpu]; exact h.state,
    by rw [hcpu], by rw [hcpu]; exact h.we, ?_⟩
  rw [hcpu, hram, hread.settled.1]
  exact hread

/-- The host takes the memory, and the load begins again. -/
theorem Waiting.again {j : Nat} (h : Waiting s j) (hr : i.resetNInt = true)
    (hc : i.csrCtl1 = true) : Waiting (s.step i) 10 := by
  have hcpu := step_dataFetch_wait h.halt h.accepted h.state hr (Or.inr hc)
  have hidle := ram_step_host (s := s) hr hc
  refine ⟨by rw [hcpu]; exact h.halt, by rw [hcpu]; exact h.accepted, by rw [hcpu]; exact h.state,
    by rw [hcpu], by rw [hcpu]; exact h.we, RamModule.ReadAt.idle ?_⟩
  rw [hidle.holds]
  exact hidle

/-- **A load that never gets eleven edges in a row waits for ever.** -/
theorem Waiting.starved (h : Waiting s 10) (hr : ∀ t, (inp t).resetNInt = true)
    (hc : ∀ t, ∃ u, t ≤ u ∧ u < t + 11 ∧ (inp u).csrCtl1 = true) (t : Nat) :
    (run inp s t).cpu.halt = false := by
  -- the edges since the host last had the memory are those the load has used
  have hwait : ∃ d, d ≤ 10 ∧ d ≤ t ∧ (∀ v, t - d ≤ v → v < t → (inp v).csrCtl1 = false)
      ∧ Waiting (run inp s t) (10 - d) := by
    induction t with
    | zero => exact ⟨0, by omega, by omega, fun v h1 h2 => by omega, h⟩
    | succ t ih =>
        obtain ⟨d, hd, hdt, hlow, hw⟩ := ih
        cases hct : (inp t).csrCtl1 with
        | true => exact ⟨0, by omega, by omega, fun v h1 h2 => by omega, hw.again (hr t) hct⟩
        | false =>
            have hlow' : ∀ v, t - d ≤ v → v < t + 1 → (inp v).csrCtl1 = false := by
              intro v h1 h2
              rcases Nat.lt_succ_iff_lt_or_eq.mp h2 with hv | rfl
              · exact hlow v h1 hv
              · exact hct
            have hd' : d < 10 := by
              by_contra hten
              obtain ⟨u, hu1, hu2, hu3⟩ := hc (t - d)
              rw [hlow' u hu1 (by omega)] at hu3
              cases hu3
            refine ⟨d + 1, by omega, by omega, fun v h1 h2 => hlow' v (by omega) h2, ?_⟩
            rw [show 10 - d = 10 - (d + 1) + 1 by omega] at hw
            exact hw.step (hr t) hct
  obtain ⟨d, -, -, -, hw⟩ := hwait
  exact hw.halt

/-! ## The whole property -/

/-- A run that is stalled and one that is not, from one reset: what the stalled one executes and
ends with is what the other does, and it does all of it if it halts. -/
theorem stalled_run {inp inp' : Nat → Inputs} (hs : Released s) (hreach : Reachable s)
    (hrun : ∀ t, (inp t).Running) (hquiet : ∀ t, (inp' t).Quiet)
    (hstart : s.start inp = s.start inp') :
    (∀ l, Executes inp s l → Executes inp' s l)
    ∧ (∀ error regs mem, Ends inp s error regs mem → Ends inp' s error regs mem)
    ∧ ∀ t, (run inp s t).cpu.halt = true → SameRun inp s inp' s := by
  have hrun' : ∀ t, (inp' t).Running := fun t => (hquiet t).toRunning
  have hy' : Inputs.Yielding inp' := fun t => ⟨t, Nat.le_refl t, fun v _ _ => (hquiet v).csr⟩
  have hexecutes : ∀ l, Executes inp s l → Executes inp' s l := by
    intro l hl
    rw [executes_iff hs hrun' hy', ← hstart]
    exact executes_log hs hrun hl
  have hends : ∀ error regs mem, Ends inp s error regs mem → Ends inp' s error regs mem := by
    intro error regs mem hend
    rw [ends_iff hs hrun' hy', ← hstart]
    exact ends_machine hs hrun hend
  refine ⟨hexecutes, hends, fun t hh => ⟨fun l => ⟨hexecutes l, fun hl => ?_⟩, ?_⟩⟩
  · obtain ⟨k, hk⟩ := (executes_iff hs hrun' hy' l).mp hl
    rw [← hstart] at hk
    exact executes_of_halt hs hrun hh hk
  · intro error regs mem
    refine ⟨hends error regs mem, fun hend => ?_⟩
    have hown : Ends inp s _ _ _ := ⟨t, hh, rfl, rfl, rfl⟩
    obtain ⟨rfl, rfl, rfl⟩ :=
      Ends.unique hreach (fun t => (hrun' t).resetN) hend (hends _ _ _ hown)
    exact hown

/-- **Isolation and transparency.** After a reset edge with the data memory in the core's hands,
as long as reset stays released:

* what is on the external port makes no difference to any register or byte;
* whatever the host does, an instruction that is done has done what the architecture says;
* if the program is left alone, the run executes a beginning of what it would execute if the host
  never took the data memory, and ends only as that one does; and it is the same run if it halts,
  or if the host lets go of the data memory for eleven edges in a row again and again. -/
theorem host_isolation (s₀ : Sys) (i₀ : Inputs) (hreset : i₀.resetNInt = false)
    (hcsr : i₀.csrCtl1 = false) :
    (∀ inp inp' : Nat → Inputs, (∀ t, (inp t).resetNInt = true) →
      (∀ t, (inp t).SameButPort (inp' t)) →
      ∀ t, run inp' (s₀.step i₀) t = run inp (s₀.step i₀) t)
    ∧ (∀ inp : Nat → Inputs, (∀ t, (inp t).resetNInt = true) →
      ∀ t, (run inp (s₀.step i₀) t).Begins →
      ∀ u, (run inp (s₀.step i₀) t).Completes (fun v => inp (t + v)) u →
        (run inp (s₀.step i₀) (t + u)).Shows ((run inp (s₀.step i₀) t).machine.exec
          (run inp (s₀.step i₀) t).cpu.instruction))
    ∧ ∀ inp inp' : Nat → Inputs, (∀ t, (inp t).Running) → (∀ t, (inp' t).Quiet) →
        (∀ l, Executes inp (s₀.step i₀) l → Executes inp' (s₀.step i₀) l)
        ∧ (∀ error regs mem, Ends inp (s₀.step i₀) error regs mem →
          Ends inp' (s₀.step i₀) error regs mem)
        ∧ ((Inputs.Yielding inp ∨ ∃ t, (run inp (s₀.step i₀) t).cpu.halt = true) →
          SameRun inp (s₀.step i₀) inp' (s₀.step i₀)) := by
  refine ⟨fun inp inp' hr hport t => run_sameButPort hport hr _ t, ?_, ?_⟩
  · intro inp hr t hb u hu
    rw [run_add]
    exact hb.shows (fun v => hr (t + v)) hu
  intro inp inp' hrun hquiet
  have hrel : Released (s₀.step i₀) := released_of_reset hreset
  have hidle : (s₀.step i₀).dataMem.Idle s₀.dataMem.mem :=
    idle_of_step_reset s₀ hreset hcsr
  have hstart : (s₀.step i₀).start inp = (s₀.step i₀).start inp' := by
    unfold start
    rw [first_data hrel (hrun 0).resetN hidle, first_data hrel (hquiet 0).resetN hidle]
  obtain ⟨hexecutes, hends, hhalts⟩ :=
    stalled_run hrel (Reachable.reset s₀ i₀ hreset) hrun hquiet hstart
  refine ⟨hexecutes, hends, ?_⟩
  rintro (hy | ⟨t, hh⟩)
  · refine sameRun_of_machines hrel hrel hrun (fun t => (hquiet t).toRunning) hy
      (fun t => ⟨t, Nat.le_refl t, fun v _ _ => (hquiet v).csr⟩) ?_ ?_
    · intro k
      rw [hstart]
    · intro k
      rw [hstart]
  · exact hhalts t hh

/-! ## Pulses that come too often -/

/-- A load followed by `EXIT`s. -/
def loadAndExit : Program := fun a =>
  if a = 0 then 0x7101000000000000#64 else 0x9500000000000000#64

/-- The design at the end of a reset, about to run it. -/
def loading : Sys := (zero loadAndExit fun _ => 0).step (Inputs.still false)

/-- Nothing but `csr_ctl[1]` when `pulse` says so, and a word written behind the load when `write`
does. -/
def pulsing (pulse write : Nat → Bool) (t : Nat) : Inputs :=
  { Inputs.still true with
    csrCtl := if pulse t then 2 else 0
    vebpfProgAddrIn := 1
    vebpfProgDataIn := BitVec.allOnes 64
    vebpfProgWriteEnableIn := write t }

theorem pulsing_resetNInt (pulse write : Nat → Bool) (t : Nat) :
    (pulsing pulse write t).resetNInt = true := by
  simp [pulsing, Inputs.still, Inputs.resetNInt]

theorem pulsing_csrCtl1 (pulse write : Nat → Bool) (t : Nat) :
    (pulsing pulse write t).csrCtl1 = pulse t := by
  have hcsr : (pulsing pulse write t).csrCtl = if pulse t then 2 else 0 := rfl
  rw [Inputs.csrCtl1, hcsr]
  cases pulse t <;> rfl

/-- A load, an increment of `r2`, and `EXIT`s. -/
def loadAndAdd : Program := fun a =>
  if a = 0 then 0x7101000000000000#64
  else if a = 1 then 0x0702000000000001#64 else 0x9500000000000000#64

/-- The design at the end of a reset, about to run it. -/
def adding : Sys := (zero loadAndAdd fun _ => 0).step (Inputs.still false)

/-- Nothing but `csr_ctl[1]` when `pulse` says so, and the program memory in reset for four
edges. -/
def freezing (pulse : Nat → Bool) (t : Nat) : Inputs :=
  { pulsing pulse (fun _ => false) t with
    vebpfProgResetIn := decide (16 ≤ t ∧ t < 20) }

/-- Pulses of one edge, one in eight, starve the load. With the program memory written or reset
during the run, a single pulse decides which words follow the load. -/
theorem pulses_show :
    ¬ SameRun (pulsing (fun t => t % 8 == 7) fun _ => false) loading
        (pulsing (fun _ => false) fun _ => false) loading
    ∧ ¬ SameRun (pulsing (fun t => t == 8) fun t => t == 16) loading
        (pulsing (fun _ => false) fun t => t == 16) loading
    ∧ ¬ SameRun (freezing fun t => t == 8) adding (freezing fun _ => false) adding := by
  have hreach : Reachable loading := Reachable.reset _ _ (Inputs.still_resetNInt false)
  refine ⟨?_, ?_, ?_⟩
  · intro hsame
    have hexit : Ends (pulsing (fun _ => false) fun _ => false) loading false _ _ :=
      ⟨18, by decide, by decide, rfl, rfl⟩
    obtain ⟨t, hh, -⟩ := (hsame.ends _ _ _).mpr hexit
    have hwait : Waiting (run (pulsing (fun t => t % 8 == 7) fun _ => false) loading 4) 10 :=
      ⟨by decide, by decide, by decide, by decide, by decide,
        RamModule.ReadAt.idle ⟨by decide, by decide, by decide, rfl, rfl⟩⟩
    have hpulse : ∀ v, ∃ u, v ≤ u ∧ u < v + 11
        ∧ (pulsing (fun t => t % 8 == 7) (fun _ => false) (4 + u)).csrCtl1 = true := by
      intro v
      refine ⟨v + (3 + 8 - v % 8) % 8, by omega, by omega, ?_⟩
      rw [pulsing_csrCtl1, beq_iff_eq]
      omega
    have hstarved := hwait.starved (fun v => pulsing_resetNInt _ _ (4 + v)) hpulse t
    have hfrozen := hreach.frozen (pulsing_resetNInt _ _) (Nat.le_add_left t 4) hh
    rw [← run_add, hfrozen.halt, hh] at hstarved
    cases hstarved
  · intro hsame
    have hexit : Ends (pulsing (fun _ => false) fun t => t == 16) loading false _ _ :=
      ⟨18, by decide, by decide, rfl, rfl⟩
    have herr : Ends (pulsing (fun t => t == 8) fun t => t == 16) loading true _ _ :=
      ⟨22, by decide, by decide, rfl, rfl⟩
    have hone := Ends.unique hreach (pulsing_resetNInt _ _) ((hsame.ends _ _ _).mp herr) hexit
    cases hone.1
  · intro hsame
    -- the word that the memory goes on offering is executed three times, or once
    have hthrice : Ends (freezing fun _ => false) adding false _ _ :=
      ⟨24, by decide, by decide, rfl, rfl⟩
    have honce : Ends (freezing fun t => t == 8) adding false _ _ :=
      ⟨25, by decide, by decide, rfl, rfl⟩
    have hreset : ∀ t, (freezing (fun _ => false) t).resetNInt = true :=
      pulsing_resetNInt (fun _ => false) fun _ => false
    have hone := Ends.unique (Reachable.reset _ _ (Inputs.still_resetNInt false)) hreset
      ((hsame.ends _ _ _).mp honce) hthrice
    exact absurd (congrArg (fun regs => regs.read 2) hone.2.1) (by decide)

/-- One pulse in the middle of the load makes no difference. -/
theorem host_isolation_loading :
    SameRun (pulsing (fun t => t == 8) fun _ => false) loading
      (fun _ => Inputs.still true) loading := by
  refine ((host_isolation (zero loadAndExit fun _ => 0) (Inputs.still false)
    (Inputs.still_resetNInt false) (Inputs.still_csrCtl1 false)).2.2 _ _
    (fun t => ⟨pulsing_resetNInt _ _ t, rfl, rfl⟩)
    (fun _ => ⟨Inputs.still_running, Inputs.still_csrCtl1 true⟩)).2.2
    (Or.inl fun t => ⟨t + 9, by omega, ?_⟩)
  intro v h1 _
  rw [pulsing_csrCtl1, beq_eq_false_iff_ne]
  omega

end Sys

end VeBpf
