import VeBpf.Proof.Follow

/-!
# Halting is final

Once a reset edge has been seen, a design is either fresh from a reset or in one of
the phases, whatever the ports do afterwards. A core that has halted is in the last
phase, where no strobe is up and no byte is on its way, and stays there until the
next reset.
-/

namespace VeBpf

variable {s s' : Sys} {i : Inputs}

/-- The states that follow a reset edge, under any inputs. -/
inductive Sys.Reachable : Sys → Prop
  | reset (s : Sys) (i : Inputs) (h : i.resetNInt = false) : Sys.Reachable (s.step i)
  | step (s : Sys) (i : Inputs) (h : Sys.Reachable s) : Sys.Reachable (s.step i)

theorem Sys.run_add (inp : Nat → Inputs) (s : Sys) (t u : Nat) :
    Sys.run inp s (t + u) = Sys.run (fun v => inp (t + v)) (Sys.run inp s t) u := by
  induction u with
  | zero => rfl
  | succ u ih => rw [← Nat.add_assoc, Sys.run, Sys.run, ih]

theorem Sys.Reachable.after (h : Sys.Reachable s) (inp : Nat → Inputs) (t : Nat) :
    Sys.Reachable (Sys.run inp s t) := by
  induction t with
  | zero => exact h
  | succ t ih => exact Sys.Reachable.step _ _ ih

/-- **Every reachable state is fresh from a reset or in a phase.** -/
theorem Sys.Reachable.standing (h : Sys.Reachable s) :
    Released s ∨ ∃ m st hi lo, Phase m s st hi lo := by
  induction h with
  | reset s i h => exact Or.inl (released_of_reset h)
  | step s i _ ih =>
      by_cases hr : i.resetNInt = true
      · right
        rcases ih with hs | ⟨m, st, hi, lo, h⟩
        · rcases hs.step hr rfl with ⟨_, h, _⟩ | ⟨_, h⟩
          · exact ⟨_, _, _, _, h⟩
          · exact ⟨_, _, _, _, h⟩
        · cases h.step hr with
          | stay _ _ phase => exact ⟨_, _, _, _, phase⟩
          | toDelay _ _ phase => exact ⟨_, _, _, _, phase⟩
          | toFetch _ _ phase => exact ⟨_, _, _, _, phase⟩
          | stop phase => exact ⟨_, _, _, _, phase⟩
      · exact Or.inl (released_of_reset (by simpa using hr))

/-- A reachable core that has halted is in the last phase. -/
theorem Sys.Reachable.stopped (h : Sys.Reachable s) (hh : s.cpu.halt = true) :
    ∃ m, Stopped m s := by
  rcases h.standing with hs | ⟨m, st, hi, lo, hp⟩
  · rw [hs.halt] at hh
    cases hh
  · obtain rfl := hp.halt_iff.mp hh
    exact ⟨m, hp.stopped_inv⟩

theorem Sys.Reachable.halt_of_error (h : Sys.Reachable s) (he : s.cpu.error = true) :
    s.cpu.halt = true := by
  rcases h.standing with hs | ⟨m, st, hi, lo, hp⟩
  · rw [hs.error] at he
    cases he
  · by_cases hst : st = .stopped
    · exact hp.halt_iff.mpr hst
    · rw [(hp.holds hst).error] at he
      cases he

/-- `s'` keeps what the program can have left behind in `s`. -/
structure Frozen (s s' : Sys) : Prop where
  regs : s'.cpu.regs = s.cpu.regs
  error : s'.cpu.error = s.cpu.error
  halt : s'.cpu.halt = s.cpu.halt
  ip : s'.cpu.ip = s.cpu.ip
  ticks : s'.cpu.ticks = s.cpu.ticks
  data : s'.dataMem.mem = s.dataMem.mem
  /-- No byte is on its way to the data memory. -/
  landed : s'.dataMem.settled = s.dataMem.mem
  /-- No access, division or call is asked for. -/
  dataStb : s'.cpu.dataStb = false
  callStb : s'.cpu.callHandlerStb = false
  /-- Nothing that was asked for earlier is taken up. -/
  idle : s'.cpu.cpuDataAck = s.cpu.cpuDataAck ∧ s'.cpu.cpuDiv64Ack = s.cpu.cpuDiv64Ack

theorem Stopped.frozen {m : Machine} (h : Stopped m s) : Frozen s s :=
  ⟨rfl, rfl, rfl, rfl, rfl, rfl, by rw [h.ram.landed, h.ram.holds], h.stb, h.call.stb, rfl, rfl⟩

/-- One edge of a halted core changes `state_next` and nothing else of the core. -/
theorem Frozen.step {m : Machine} (h : Frozen s s') (hs : Stopped m s') (hr : i.resetNInt = true) :
    Frozen s (s'.step i) := by
  have hcpu : (s'.step i).cpu = { s'.cpu with stateNext := .halt } := by
    rw [step_cpu hr, Cpu.run, if_pos hs.halt]
  have hnext := step_stopped hs hr
  have hdata : m.mem = s.dataMem.mem := by rw [← hs.ram.holds, h.data]
  exact ⟨by rw [hcpu]; exact h.regs, by rw [hcpu]; exact h.error, by rw [hcpu]; exact h.halt,
    by rw [hcpu]; exact h.ip, by rw [hcpu]; exact h.ticks, by rw [hnext.ram.holds, hdata],
    by rw [hnext.ram.landed, hdata], hnext.stb, hnext.call.stb, by rw [hcpu]; exact h.idle⟩

theorem frozen_run {m : Machine} (hs : Stopped m s) {inp : Nat → Inputs}
    (hrun : ∀ t, (inp t).resetNInt = true) (t : Nat) :
    Stopped m (Sys.run inp s t) ∧ Frozen s (Sys.run inp s t) := by
  induction t with
  | zero => exact ⟨hs, hs.frozen⟩
  | succ t ih =>
      obtain ⟨hstop, hfrozen⟩ := ih
      exact ⟨step_stopped hstop (hrun t), hfrozen.step hstop (hrun t)⟩

/-- **Halting is final and an error halts.** In every state that follows a reset edge an error
comes with a halt, and from a halted one no input but a reset changes the registers, the flags or
the data memory, and no access is started, taken up or still under way. -/
theorem halting_final (s : Sys) (h : Sys.Reachable s) :
    (s.cpu.error = true → s.cpu.halt = true)
    ∧ (s.cpu.halt = true → ∀ inp : Nat → Inputs, (∀ t, (inp t).resetNInt = true) →
        ∀ t, Frozen s (Sys.run inp s t)) := by
  refine ⟨h.halt_of_error, ?_⟩
  intro hh inp hrun t
  obtain ⟨m, hs⟩ := h.stopped hh
  exact (frozen_run hs hrun t).2

/-- The design at the end of a reset, about to run `EXIT`s. -/
def exiting : Sys :=
  (Sys.zero (fun _ => 0x9500000000000000#64) fun _ => 0).step (Inputs.still false)

/-- The host takes the data memory and writes to it at every second edge, and the load port puts
another instruction at every address. -/
def meddling (t : Nat) : Inputs :=
  { Inputs.still true with
    csrCtl := if t % 2 = 0 then 2 else 0
    dataMemStbInputPort := true
    dataMemWeInputPort := true
    dataMemAdrInputPort := BitVec.ofNat 11 t
    dataMemDataBytesWrittenWidthWwInputPort := 8
    dataMemWrite64bitInputPort := BitVec.allOnes 64
    vebpfProgAddrIn := BitVec.ofNat 10 t
    vebpfProgDataIn := 0x7a00000011223344#64
    vebpfProgWriteEnableIn := true }

/-- A core that an `EXIT` has halted stays as it is, whatever comes to its ports. -/
theorem halting_final_exiting :
    Frozen (Sys.run (fun _ => Inputs.still true) exiting 5)
      (Sys.run meddling (Sys.run (fun _ => Inputs.still true) exiting 5) 8) := by
  have hreach : Sys.Reachable (Sys.run (fun _ => Inputs.still true) exiting 5) :=
    Sys.Reachable.after (Sys.Reachable.reset _ _ rfl) _ 5
  have hmeddling : ∀ t, (meddling t).resetNInt = true := by
    intro t
    simp [meddling, Inputs.still, Inputs.resetNInt]
  exact (halting_final _ hreach).2 (by decide) meddling hmeddling 8

end VeBpf
