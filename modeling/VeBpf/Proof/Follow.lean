import VeBpf.Core.Trace
import VeBpf.Isa.Program
import VeBpf.Lib.Stutter
import VeBpf.Proof.Busy

/-!
# A run follows the machine

The program memory comes in. While nobody writes it, the fetch stage holds the
words it says, and a run from the end of a reset goes through the states of
`CoreMachine`, executing the instructions that the machine executes. `follows`
puts this into the terms of `VeBpf.Lib.Stutter`.
-/

namespace VeBpf

open Stutter

variable {m : Machine} {c : CoreMachine} {s : Sys} {pm : Program} {i : Inputs} {st : Stage}
  {hi lo : Nat} {w : BitVec 64}

/-! ## The end of a reset -/

/-- The design as a reset edge leaves it. The data memory and the words in the fetch stage may
be anything. -/
structure Released (s : Sys) : Prop where
  halt : s.cpu.halt = false
  error : s.cpu.error = false
  keepOp : s.cpu.keepOp = 0
  state : s.cpu.stateNext = .opFetch
  dataStb : s.cpu.dataStb = false
  dataWe : s.cpu.dataWe = false
  dataTaken : s.cpu.cpuDataAck = false
  div : DivQuiet s
  shift : ShiftQuiet s
  callStb : s.cpu.callHandlerStb = false
  writeEnable : s.callHandler.writeEnable = false
  pause : s.callHandler.pause = false
  ret : s.callHandler.ret = 0

theorem cpu_reset (hr : i.resetNInt = false) : (s.step i).cpu = s.cpu.reset i (s.wires i) := by
  simp [Sys.step, Cpu.step, hr]

theorem released_of_reset (hr : i.resetNInt = false) : Released (s.step i) := by
  have hcpu := cpu_reset (s := s) hr
  refine ⟨?_, ?_, ?_, ?_, ?_, ?_, ?_, ⟨?_, ?_⟩, ⟨?_, ?_, ?_⟩, ?_, ?_, ?_, ?_⟩
  any_goals rw [hcpu]; rfl
  all_goals simp [Sys.step, hr, Shifter.step, CallHandler.step]

/-- The machine at the end of a reset, over a data memory. -/
def Sys.entry (s : Sys) (mem : BitVec 11 → BitVec 8) : Machine where
  ip := s.cpu.ipNext
  regs := s.cpu.regs
  mem := mem
  store := s.callHandler.store
  upper := none
  halt := false
  error := false

/-- What is left on the data memory's write port lands, or is dropped when the host holds the
memory. -/
theorem Released.ram_step (h : Released s) (hr : i.resetNInt = true) :
    (s.step i).dataMem.Idle (if i.csrCtl1 then s.dataMem.mem else s.dataMem.settled) := by
  cases hc : i.csrCtl1
  · rw [ram_step_own hr hc, h.dataStb]
    exact RamModule.idle_of_release _ _ _ _ _
  · exact ram_step_host hr hc

/-- **The first edge after a reset.** -/
theorem Released.step (h : Released s) (hr : i.resetNInt = true)
    (hm : m = s.entry (s.step i).dataMem.mem) :
    (m.rejects s.cpu.instruction = false ∧ Phase m (s.step i) .delay 69 10
      ∧ (s.step i).cpu.instruction = s.pgm.dataOut)
    ∨ (m.rejects s.cpu.instruction = true
      ∧ Phase (m.exec s.cpu.instruction) (s.step i) .stopped 0 0) := by
  -- whoever had the data memory during the reset, this edge brings it to rest
  have hidle : (s.step i).dataMem.Idle m.mem := by
    have hi := h.ram_step hr
    rwa [← hi.holds, show (s.step i).dataMem.mem = m.mem by rw [hm]; rfl] at hi
  have hholds : Holds m s.cpu := by
    subst hm
    refine ⟨rfl, rfl, h.halt, h.error, rfl, h.keepOp, ?_⟩
    intro d hd
    cases hd
  have hcall : CallQuiet m s := by
    subst hm
    refine ⟨h.callStb, rfl, ?_⟩
    show CallStore.written s.callHandler.store _ _ = s.callHandler.store
    simp [CallStore.written, CallHandler.store, h.writeEnable, Ram64V1.step]
  cases hrej : m.rejects s.cpu.instruction with
  | false =>
      have hcpu : (s.step i).cpu
          = s.cpu.opFetch { s.cpu with ticks := s.cpu.ticks + 1 } (s.wires i) := by
        rw [step_cpu hr, run_opFetch h.halt (by rw [hholds.rejects, hrej]) h.state]
      have hdata : DataQuiet m (s.step i) :=
        ⟨by rw [hcpu]; exact h.dataStb, by rw [hcpu]; exact h.dataWe,
          by rw [hcpu]; exact h.dataTaken, hidle⟩
      have hip : s.cpu.ipNext = m.ip := by rw [hm]; rfl
      exact Or.inl ⟨rfl, delay_of_fetch hholds hdata h.div h.shift hcall h.state hip hr hrej⟩
  | true =>
      have hcpu : (s.step i).cpu = s.cpu.fault := by
        rw [step_cpu hr, run_rejects h.halt (by rw [hholds.rejects, hrej])]
      rw [Machine.exec_of_rejects hholds.running hrej]
      exact Or.inr ⟨rfl, stopped_of (m := m) hr rfl rfl rfl hcpu rfl rfl hholds.regs h.dataStb
        hidle hcall h.callStb rfl rfl⟩

/-! ## The words in the fetch stage -/

/-- The program memory and the fetch stage hold what the program says. -/
def Fetching (pm : Program) (c : CoreMachine) (s : Sys) : Stage → Prop
  | .fetch => c.word pm =
      if c.machine.rejects s.cpu.instruction then s.cpu.instruction
      else if c.machine.rejects s.pgm.dataOut then s.pgm.dataOut else c.machine.wordAt pm
  | .delay => c.word pm =
      (if c.machine.rejects s.cpu.instruction then s.cpu.instruction else c.machine.wordAt pm)
      ∧ s.pgm.dataOut = c.machine.wordAt pm
  | .decode | .busy => c.word pm = s.cpu.instruction ∧ s.cpu.instruction = c.machine.wordAt pm
      ∧ s.pgm.dataOut = c.machine.wordAfter pm
  | .stopped => True

theorem pgm_step (hi : i.Running) :
    (s.step i).pgm = { mem := s.pgm.mem, dataOut := s.pgm.mem (s.cpu.ipNext.setWidth 9) } := by
  simp [Sys.step, Ram64V3.step, hi.progReset, hi.progWrite]

/-- The words keep in step while a word is not finished. -/
theorem Fetching.stay (h : Fetching pm c s st) (hphase : Phase c.machine s st hi lo)
    (hmem : s.pgm.mem = pm) (hi' : i.Running) (hst : st ≠ .stopped)
    (hhalt : (s.step i).cpu.halt = false) (hword : (s.step i).cpu.instruction = st.word s) :
    Fetching pm c (s.step i) st.next := by
  have hpgm := pgm_step (s := s) hi'
  have hip := hphase.ipNext
  have hholds := hphase.holds hst
  -- an edge that leaves the core running has accepted the word it found
  have hacc : c.machine.rejects s.cpu.instruction = false := by
    rw [← hholds.rejects]
    by_contra hrej
    rw [step_cpu hi'.resetN, run_rejects hholds.halt (by simpa using hrej)] at hhalt
    cases hhalt
  cases st with
  | fetch =>
      have hw : (s.step i).cpu.instruction = s.pgm.dataOut := hword
      refine ⟨?_, ?_⟩
      · rw [hw, show c.word pm = _ from h, hacc]
        rfl
      · rw [hpgm, hmem, hip]
        rfl
  | delay =>
      have hw : (s.step i).cpu.instruction = s.pgm.dataOut := hword
      refine ⟨?_, ?_, ?_⟩
      · rw [hw, h.1, hacc, h.2]
        rfl
      · rw [hw, h.2]
      · rw [hpgm, hmem, hip.ipNext]
        rfl
  | decode =>
      have hw : (s.step i).cpu.instruction = s.cpu.instruction := hword
      exact ⟨by rw [hw, h.1], by rw [hw, h.2.1], by rw [hpgm, hmem, hip.ipNext]; rfl⟩
  | busy =>
      have hw : (s.step i).cpu.instruction = s.cpu.instruction := hword
      exact ⟨by rw [hw, h.1], by rw [hw, h.2.1], by rw [hpgm, hmem, hip.ipNext]; rfl⟩
  | stopped => exact absurd rfl hst

/-- What the fetch stage is about to act on is the word of the machine, if anything is. -/
theorem Fetching.word (h : Fetching pm c s st) (hst : st.onWord ∨
    (st ≠ .stopped ∧ c.machine.rejects s.cpu.instruction = true)) :
    c.word pm = s.cpu.instruction := by
  rcases hst with (rfl | rfl) | ⟨hst, hrej⟩
  · exact h.1
  · exact h.1
  · cases st with
    | fetch => rw [show c.word pm = _ from h, if_pos hrej]
    | delay => rw [h.1, if_pos hrej]
    | decode => exact h.1
    | busy => exact h.1
    | stopped => exact absurd rfl hst

/-- Only a refused word stops the core while it is fetching. -/
theorem rejects_of_halt (hphase : Phase m s st hi lo) (hi' : i.Running)
    (hst : st = .fetch ∨ st = .delay) (hhalt : (s.step i).cpu.halt = true) :
    m.rejects s.cpu.instruction = true := by
  by_contra hrej
  have hrej' : m.rejects s.cpu.instruction = false := by simpa using hrej
  rcases hst with rfl | rfl
  · cases hphase with
    | fetch rest hs =>
        rw [step_cpu hi'.resetN, run_opFetch rest.holds.halt (by rw [rest.holds.rejects, hrej']) hs]
          at hhalt
        exact absurd (rest.holds.halt.symm.trans hhalt) (by simp)
  · cases hphase with
    | delay rest hs =>
        rw [step_cpu hi'.resetN,
          run_opFetchDelay rest.holds.halt (by rw [rest.holds.rejects, hrej']) hs] at hhalt
        exact absurd (rest.holds.halt.symm.trans hhalt) (by simp)

/-- The words keep in step when the next word has been fetched. -/
theorem Fetching.toDelay (h : Fetching pm c s st) (hphase : Phase c.machine s st hi lo)
    (hmem : s.pgm.mem = pm) (hi' : i.Running) (hon : st.onWord)
    (hword : (s.step i).cpu.instruction = s.pgm.dataOut)
    (hip : (c.machine.exec s.cpu.instruction).ip = c.machine.ip + 1) :
    Fetching pm (c.next pm) (s.step i) .delay := by
  have hpgm := pgm_step (s := s) hi'
  have hw := h.word (Or.inl hon)
  have hphase' := hphase.ipNext
  have hfacts : s.pgm.dataOut = c.machine.wordAfter pm ∧ s.cpu.ipNext = c.machine.ip + 1 := by
    rcases hon with rfl | rfl
    · exact ⟨h.2.2, hphase'.ipNext⟩
    · exact ⟨h.2.2, hphase'.ipNext⟩
  have hat : (c.next pm).machine.wordAt pm = c.machine.wordAfter pm := by
    show pm ((c.machine.exec (c.word pm)).ip.setWidth 9) = _
    rw [hw, hip]
    rfl
  refine ⟨?_, ?_⟩
  · rw [hword, hfacts.1, hat]
    cases hrej : (c.next pm).machine.rejects (c.machine.wordAfter pm) <;>
      simp [CoreMachine.word, hat, show (c.next pm).stale = [c.machine.wordAfter pm] from rfl, hrej]
  · rw [hpgm, hmem, hfacts.2, hat]
    rfl

/-- The words keep in step over a jump: the word after it is in the fetch stage. -/
theorem Fetching.toFetch (h : Fetching pm c s st) (hphase : Phase c.machine s st hi lo)
    (hmem : s.pgm.mem = pm) (hi' : i.Running) (hon : st.onWord)
    (hword : (s.step i).cpu.instruction = s.cpu.instruction)
    (hacc : (c.machine.exec s.cpu.instruction).rejects s.cpu.instruction = false) :
    Fetching pm (c.next pm) (s.step i) .fetch := by
  have hpgm := pgm_step (s := s) hi'
  have hw := h.word (Or.inl hon)
  have hip := hphase.ipNext
  have hnext : s.cpu.ipNext = c.machine.ip + 1 := by
    rcases hon with rfl | rfl <;> exact hip.ipNext
  have hout : (s.step i).pgm.dataOut = c.machine.wordAfter pm := by
    rw [hpgm, hmem, hnext]
    rfl
  have hacc' : (c.next pm).machine.rejects (s.step i).cpu.instruction = false := by
    show (c.machine.exec (c.word pm)).rejects _ = false
    rw [hw, hword, hacc]
  show (c.next pm).word pm = _
  rw [hacc', hout]
  cases hrej : (c.next pm).machine.rejects (c.machine.wordAfter pm) <;>
    simp [CoreMachine.word, show (c.next pm).stale = [c.machine.wordAfter pm] from rfl, hrej]

/-! ## The whole relation -/

/-- At this moment of a run the core is at the state `x.1` of the core machine, and has executed
the instructions `x.2`, and the one under way if it has begun. -/
structure Linked (pm : Program) (s : Sys) (k : Watch) (log : List Execution)
    (x : CoreMachine × List Execution) (st : Stage) (hi lo : Nat) : Prop where
  phase : Phase x.1.machine s st hi lo
  program : s.pgm.mem = pm
  fetching : Fetching pm x.1 s st
  upper : st ≠ .stopped → k.upper = x.1.machine.upper.isSome
  delayed : st ≠ .stopped → k.delayed = decide (st = .decode)
  log : log = x.2 ++ if st = .busy then x.1.event pm else []

variable {k : Watch} {log : List Execution}
  {x : CoreMachine × List Execution}

/-- The observer's new words are the core's. -/
theorem Linked.fresh (h : Linked pm s k log x st hi lo) : k.fresh s = decide (st = .decode) := by
  unfold Watch.fresh
  by_cases hst : st = .stopped
  · have hh := h.phase.halt_iff.mpr hst
    simp [hh, hst]
  · have hh := (h.phase.holds hst).halt
    rw [h.delayed hst, hh]
    by_cases hd : st = .decode
    · subst hd
      cases h.phase with
      | decode _ hs => simp [hs]
    · simp [hd]

/-- **What the observer sees executed is what the machine executes.** -/
theorem Linked.executes (h : Linked pm s k log x st hi lo) :
    k.executes s = if st = .decode then x.1.event pm else [] := by
  unfold Watch.executes Watch.firstDecode
  rw [h.fresh]
  by_cases hd : st = .decode
  · subst hd
    have hst : Stage.decode ≠ .stopped := by simp
    have hholds := h.phase.holds hst
    have hword := h.fetching.1
    have hon := h.phase.ipNext
    have hmem := h.phase.rest_of_decode.data.ram.holds
    rw [h.upper hst, hholds.rejects, Sys.execution, CoreMachine.event, Machine.eventOf, hword,
      hholds.running, hon.ip, hholds.regs, hmem]
    cases hu : x.1.machine.upper <;> cases hj : x.1.machine.rejects s.cpu.instruction <;> simp
  · simp [hd]

/-- The observer's `upper` bit after an edge. -/
theorem Linked.upper_step (h : Linked pm s k log x st hi lo) :
    (k.step s).upper = if st = .decode then
        !k.upper && opcodeOf s.cpu.instruction == ebpfOpLddw else k.upper := by
  show (if k.fresh s then _ else _) = _
  rw [h.fresh]
  by_cases hd : st = .decode <;> simp [hd]

/-- The observer's `delayed` bit after an edge. -/
theorem Linked.delayed_step (h : Linked pm s k log x st hi lo) (hst : st ≠ .stopped) :
    (k.step s).delayed = decide (st = .delay) := by
  show (s.cpu.stateNext == .opFetchDelay) = _
  rw [Bool.eq_iff_iff]
  simp [h.phase.delay_iff hst]

/-- A word that a unit works on is no `LDDW`. -/
theorem Phase.not_lddw (h : Phase m s .busy hi lo) :
    (opcodeOf s.cpu.instruction == ebpfOpLddw) = false := by
  rw [beq_eq_false_iff_ne]
  intro heq
  have hcls := h.busy.2
  rw [heq] at hcls
  exact hcls (by decide)

/-- The observer keeps in step while the core goes on with a word. -/
theorem Linked.upper_stay {hi' lo' : Nat} (h : Linked pm s k log x st hi lo) (hst : st ≠ .stopped)
    (hphase : Phase x.1.machine (s.step i) st.next hi' lo')
    (hword : (s.step i).cpu.instruction = st.word s) :
    (k.step s).upper = x.1.machine.upper.isSome := by
  rw [h.upper_step]
  by_cases hd : st = .decode
  · subst hd
    have hbusy : Phase x.1.machine (s.step i) .busy hi' lo' := hphase
    have hop := hbusy.not_lddw
    rw [show (s.step i).cpu.instruction = s.cpu.instruction from hword] at hop
    rw [if_pos rfl, hop, Bool.and_false, hbusy.busy.1.upper]
    rfl
  · rw [if_neg hd, h.upper hst]

/-- The observer keeps in step when a word ends without stopping the core. -/
theorem Linked.upper_next (h : Linked pm s k log x st hi lo) (hon : st.onWord)
    (hrun : (x.1.machine.exec s.cpu.instruction).halt = false) :
    (k.step s).upper = (x.1.machine.exec s.cpu.instruction).upper.isSome := by
  rw [h.upper_step, Machine.exec_upper hrun]
  rcases hon with rfl | rfl
  · rw [if_pos rfl, h.upper (by simp)]
  · rw [if_neg (by simp), h.upper (by simp), h.phase.busy.1.upper, h.phase.not_lddw]
    rfl

/-- The log after an edge that ends a word. -/
theorem Linked.log_next (h : Linked pm s k log x st hi lo)
    (hnone : ¬ st.onWord → x.1.event pm = []) :
    log ++ k.executes s = x.2 ++ x.1.event pm := by
  rw [h.log, h.executes]
  by_cases hb : st = .busy
  · subst hb; simp
  · by_cases hd : st = .decode
    · subst hd; simp
    · simp [hb, hd, hnone (by rintro (hc | hc) <;> contradiction)]

/-- A word that is refused, or a halted machine, executes nothing. -/
theorem event_nil (h : m.halt = true ∨ m.rejects w = true) : m.eventOf w = [] := by
  unfold Machine.eventOf
  rcases h with h | h <;> simp [h]

/-- A word that is done takes the run to the machine's next state. -/
theorem Linked.ends {st' : Stage} {hi' lo' : Nat} (h : Linked pm s k log x st hi lo)
    (hi : i.Running) (hon : st.onWord) (hst : st' = .fetch ∨ st' = .delay)
    (hphase : Phase (x.1.machine.exec s.cpu.instruction) (s.step i) st' hi' lo')
    (hfetch : Fetching pm (x.1.next pm) (s.step i) st') :
    Linked pm (s.step i) (k.step s) (log ++ k.executes s) (CoreMachine.logNext pm x)
      st' hi' lo' := by
  have hword := h.fetching.word (Or.inl hon)
  have hnext : (CoreMachine.logNext pm x).1.machine = x.1.machine.exec s.cpu.instruction := by
    rw [← hword]
    rfl
  have hlive : st ≠ .stopped := by rcases hon with rfl | rfl <;> simp
  have hlive' : st' ≠ .stopped := by rcases hst with rfl | rfl <;> simp
  have hrun := (hphase.holds hlive').running
  refine ⟨?_, ?_, hfetch, fun _ => ?_, fun _ => ?_, ?_⟩
  · rw [hnext]
    exact hphase
  · rw [pgm_step hi, h.program]
  · rw [h.upper_next hon hrun, hnext]
  · rw [h.delayed_step hlive]
    rcases hon with rfl | rfl <;> rcases hst with rfl | rfl <;> rfl
  · rw [h.log_next fun hn => absurd hon hn]
    rcases hst with rfl | rfl <;> simp [CoreMachine.logNext]

/-- The word that stops the core is the machine's; one that is refused while it is being fetched
has executed nothing. -/
theorem Linked.stops (h : Linked pm s k log x st hi lo) (hi' : i.Running)
    (hhalt : (s.step i).cpu.halt = true) :
    x.1.machine.exec (x.1.word pm) = x.1.machine.exec s.cpu.instruction
      ∧ (¬ st.onWord → x.1.event pm = []) := by
  have hfetched : st = .fetch ∨ st = .delay → x.1.word pm = s.cpu.instruction
      ∧ x.1.event pm = [] := by
    intro hfd
    have hrej := rejects_of_halt h.phase hi' hfd hhalt
    have hw := h.fetching.word (Or.inr ⟨by rcases hfd with rfl | rfl <;> simp, hrej⟩)
    refine ⟨hw, ?_⟩
    rw [CoreMachine.event, hw]
    exact event_nil (Or.inr hrej)
  cases st with
  | fetch => exact ⟨by rw [(hfetched (Or.inl rfl)).1], fun _ => (hfetched (Or.inl rfl)).2⟩
  | delay => exact ⟨by rw [(hfetched (Or.inr rfl)).1], fun _ => (hfetched (Or.inr rfl)).2⟩
  | decode =>
      exact ⟨by rw [h.fetching.word (Or.inl (Or.inl rfl))], fun hn => absurd (Or.inl rfl) hn⟩
  | busy =>
      exact ⟨by rw [h.fetching.word (Or.inl (Or.inr rfl))], fun hn => absurd (Or.inr rfl) hn⟩
  | stopped =>
      have hm := h.phase.stopped_inv.halted
      exact ⟨by rw [Machine.exec_of_halt hm, Machine.exec_of_halt hm],
        fun _ => event_nil (Or.inl hm)⟩

/-- **One clock edge of a run.** -/
theorem Linked.step (h : Linked pm s k log x st hi lo) (hi' : i.Running) :
    (∃ hi' lo', Linked pm (s.step i) (k.step s) (log ++ k.executes s) x st.next hi' lo'
      ∧ hi' ≤ hi ∧ (i.csrCtl1 = false → hi' + lo' < hi + lo))
    ∨ ∃ st' hi' lo', Linked pm (s.step i) (k.step s) (log ++ k.executes s)
        (CoreMachine.logNext pm x) st' hi' lo'
      ∧ (st' = .stopped ∨ (st.onWord ∧ (st' = .fetch ∨ st' = .delay))) := by
  have hmem : (s.step i).pgm.mem = pm := by rw [pgm_step hi', h.program]
  cases h.phase.step hi'.resetN with
  | stay hi₁ lo₁ phase word le lt =>
      refine Or.inl ⟨hi₁, lo₁, ⟨phase, hmem, ?_, ?_, ?_, ?_⟩, le, lt⟩
      · by_cases hst : st = .stopped
        · subst hst; trivial
        · refine h.fetching.stay h.phase h.program hi' hst ?_ word
          exact (phase.holds (by cases st <;> simp_all [Stage.next])).halt
      · intro hst
        exact h.upper_stay (by rintro rfl; exact hst rfl) phase word
      · intro hst
        rw [h.delayed_step (by rintro rfl; exact hst rfl)]
        cases st <;> simp [Stage.next]
      · rw [h.log, h.executes]
        cases st <;> simp [Stage.next]
  | toDelay hi₁ lo₁ phase word on ip =>
      exact Or.inr ⟨.delay, hi₁, lo₁, h.ends hi' on (Or.inr rfl) phase
        (h.fetching.toDelay h.phase h.program hi' on word ip), Or.inr ⟨on, Or.inr rfl⟩⟩
  | toFetch hi₁ lo₁ phase word on accepted =>
      exact Or.inr ⟨.fetch, hi₁, lo₁, h.ends hi' on (Or.inl rfl) phase
        (h.fetching.toFetch h.phase h.program hi' on word accepted), Or.inr ⟨on, Or.inl rfl⟩⟩
  | stop phase =>
      obtain ⟨hword, hnone⟩ := h.stops hi' (phase.halt_iff.mpr rfl)
      refine Or.inr ⟨.stopped, 0, 0, ⟨?_, hmem, trivial, fun hc => absurd rfl hc,
        fun hc => absurd rfl hc, ?_⟩, Or.inl rfl⟩
      · show Phase (x.1.machine.exec (x.1.word pm)) _ _ _ _
        rw [hword]
        exact phase
      · rw [h.log_next hnone]
        simp [CoreMachine.logNext]

/-! ## Runs -/

namespace Sys

variable (inp : Nat → Inputs) (s : Sys)

/-- The core machine at the end of a reset: the two words in the fetch stage are stale. -/
def start : CoreMachine where
  machine := s.entry (s.step (inp 0)).dataMem.mem
  stale := [s.cpu.instruction, s.pgm.dataOut]

/-- Where a run stands at time `t`. Before its first edge the data memory need not be at rest. -/
def At (t : Nat) (x : CoreMachine × List Execution) (hi lo : Nat) : Prop :=
  (t = 0 ∧ x = (s.start inp, []) ∧ hi = 70 ∧ lo = 10)
  ∨ (0 < t ∧ ∃ st, Linked s.pgm.mem (run inp s t) (watch inp s t) (executed inp s t) x st hi lo)

variable {inp s}

theorem executed_one (inp : Nat → Inputs) (s : Sys) : executed inp s 1 = [] := by
  show [] ++ Watch.start.executes s = []
  simp [Watch.executes, Watch.firstDecode, Watch.fresh, Watch.start]

/-- The first edge after the reset. -/
theorem at_one (hs : Released s) (hrun : (inp 0).Running) :
    (∃ lo, s.At inp 1 (s.start inp, []) 69 lo ∧ lo ≤ 10)
    ∨ ∃ hi lo, s.At inp 1 (CoreMachine.logNext s.pgm.mem (s.start inp, [])) hi lo := by
  have hstate : s.cpu.stateNext = .opFetch := hs.state
  have hwatch : watch inp s 1 = ⟨false, false⟩ := by
    show Watch.start.step s = _
    simp [Watch.step, Watch.start, Watch.fresh, hstate]
  have hlog := executed_one inp s
  have hpgm := pgm_step (s := s) hrun
  have hmem : (s.step (inp 0)).pgm.mem = s.pgm.mem := by rw [hpgm]
  have hstale : (s.start inp).stale = [s.cpu.instruction, s.pgm.dataOut] := rfl
  rcases hs.step (m := (s.start inp).machine) hrun.resetN rfl with
    ⟨hacc, hphase, hword⟩ | ⟨hrej, hphase⟩
  · refine Or.inl ⟨10,
      Or.inr ⟨by omega, .delay, hphase, hmem, ⟨?_, ?_⟩, fun _ => ?_, fun _ => ?_, ?_⟩,
      by omega⟩
    · show (s.start inp).word s.pgm.mem
        = if (s.start inp).machine.rejects (s.step (inp 0)).cpu.instruction then
            (s.step (inp 0)).cpu.instruction else _
      rw [hword]
      cases hrej : (s.start inp).machine.rejects s.pgm.dataOut <;>
        simp [CoreMachine.word, hstale, hacc, hrej]
    · show (s.step (inp 0)).pgm.dataOut = _
      rw [hpgm]
      rfl
    · rw [hwatch]; rfl
    · rw [hwatch]; rfl
    · rw [hlog]; rfl
  · have hw : (s.start inp).word s.pgm.mem = s.cpu.instruction := by
      simp [CoreMachine.word, hstale, hrej]
    refine Or.inr ⟨0, 0, Or.inr ⟨by omega, .stopped, ?_, hmem, trivial, fun hc => absurd rfl hc,
      fun hc => absurd rfl hc, ?_⟩⟩
    · show Phase ((s.start inp).machine.exec ((s.start inp).word s.pgm.mem)) _ _ _ _
      rw [hw]
      exact hphase
    · rw [hlog]
      show [] = [] ++ (s.start inp).event s.pgm.mem ++ []
      unfold CoreMachine.event
      rw [hw, event_nil (Or.inr hrej)]
      rfl

/-- **A run from the end of a reset follows the core machine.** -/
theorem follows (hs : Released s) (hrun : ∀ t, (inp t).Running) :
    Follows (CoreMachine.logNext s.pgm.mem) (fun t => (inp t).csrCtl1 = false) 10 (s.At inp) where
  step := by
    rintro t x hi lo (⟨rfl, rfl, rfl, rfl⟩ | ⟨ht, st, h⟩)
    · rcases at_one hs (hrun 0) with ⟨lo, hat, hlo⟩ | ⟨hi, lo, hat⟩
      · exact Or.inl ⟨69, lo, hat, by omega, fun _ => by omega⟩
      · exact Or.inr ⟨hi, lo, hat⟩
    · rcases h.step (hrun t) with ⟨hi', lo', h', hle, hlt⟩ | ⟨st', hi', lo', h', _⟩
      · exact Or.inl ⟨hi', lo', Or.inr ⟨by omega, st.next, h'⟩, hle, hlt⟩
      · exact Or.inr ⟨hi', lo', Or.inr ⟨by omega, st', h'⟩⟩
  low := by
    rintro t x hi lo (⟨_, _, _, rfl⟩ | ⟨_, st, h⟩)
    · exact Nat.le_refl _
    · exact h.phase.low

end Sys

end VeBpf
