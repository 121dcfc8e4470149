import VeBpf.Proof.Halting

/-!
# One instruction at a time

What a single instruction does is stated from the first `STATE_DECODE` cycle in
which its word stands in `instruction`, in a design that has seen a reset edge and
any inputs since: programs written while they run, memories taken away by the
host, earlier resets. From there the core works on the word until it fetches
again or halts, and shows then what `Machine.exec` says.
-/

namespace VeBpf

open Stutter

variable {m : Machine} {s : Sys} {inp : Nat → Inputs} {i : Inputs} {st : Stage} {hi lo t u : Nat}

/-! ## From the first cycle to the last -/

/-- The core is at work on a word: it neither fetches nor has halted. -/
def Cpu.working (c : Cpu) : Bool :=
  !c.halt && c.stateNext != .opFetch && c.stateNext != .opFetchDelay

namespace Sys

/-- **An instruction begins**: `STATE_OP_FETCH_DELAY` has just handed over to `STATE_DECODE`, and
no `LDDW` is under way. -/
structure Begins (s : Sys) : Prop where
  fetched : ∃ s' i, Reachable s' ∧ s'.cpu.stateNext = .opFetchDelay ∧ s = s'.step i
  state : s.cpu.stateNext = .decode
  running : s.cpu.halt = false
  lower : s.cpu.keepOp = 0

/-- The word that the run starts with is done at `u`: the core has worked on it until the edge
before. -/
structure Completes (inp : Nat → Inputs) (s : Sys) (u : Nat) : Prop where
  pos : 0 < u
  working : ∀ v, 0 < v → v < u → (run inp s v).cpu.working = true
  done : (run inp s u).cpu.working = false

/-- A word is done at one time only. -/
theorem Completes.unique (h : s.Completes inp t) (h' : s.Completes inp u) : t = u := by
  rcases Nat.lt_trichotomy t u with hlt | heq | hlt
  · exact absurd (h'.working t h.pos hlt) (by simp [h.done])
  · exact heq
  · exact absurd (h.working u h'.pos hlt) (by simp [h'.done])

/-- The machine whose registers and data bytes a design shows between two instructions. -/
def machine (s : Sys) : Machine where
  ip := s.cpu.ip
  regs := s.cpu.regs
  mem := s.dataMem.mem
  store := s.callHandler.store
  upper := none
  halt := false
  error := false

/-- The design shows a machine: the registers, the data bytes, the words behind the call handler
and the two flags. -/
structure Shows (s : Sys) (m : Machine) : Prop where
  regs : s.cpu.regs = m.regs
  mem : s.dataMem.mem = m.mem
  store : s.callHandler.store = m.store
  halt : s.cpu.halt = m.halt
  error : s.cpu.error = m.error

theorem Reachable.begins (h : Reachable s) (hdelay : s.cpu.stateNext = .opFetchDelay)
    (hstate : (s.step i).cpu.stateNext = .decode) (hhalt : (s.step i).cpu.halt = false)
    (hkeep : (s.step i).cpu.keepOp = 0) : (s.step i).Begins :=
  ⟨⟨s, i, h, hdelay, rfl⟩, hstate, hhalt, hkeep⟩

theorem Begins.reachable (h : s.Begins) : Reachable s := by
  obtain ⟨s', i, hs', -, rfl⟩ := h.fetched
  exact hs'.step s' i

end Sys

/-- The word reads or writes data bytes. -/
def accesses (w : BitVec 64) : Prop :=
  opclassOf (opcodeOf w) = opcLdx ∨ opclassOf (opcodeOf w) = opcSt
    ∨ opclassOf (opcodeOf w) = opcStx

/-! ## What a phase shows -/

/-- A machine with no `LDDW` under way is the one that the design shows. -/
theorem Rest.machine_eq (h : Rest m s) (hon : OnWord m s.cpu) (hu : m.upper = none) :
    m = s.machine := by
  have hip := hon.ip
  have hregs := h.holds.regs
  have hmem := h.data.ram.holds
  have hstore := h.call.store
  have hrun := h.holds.running
  have herr := h.holds.noError
  cases m
  simp only at hip hregs hmem hstore hrun herr hu
  simp only [Sys.machine, hip, hregs, hmem, hstore, hrun, herr, hu]

/-- A machine is no longer at work on a word, or not yet: the design shows it. -/
theorem Phase.shows (h : Phase m s st hi lo) (hst : st ≠ .busy) : s.Shows m := by
  have hrest : ∀ {hi lo}, Rest m s → Phase m s st hi lo → s.Shows m := by
    intro hi lo rest _
    exact ⟨rest.holds.regs, rest.data.ram.holds, rest.call.store,
      rest.holds.halt.trans rest.holds.running.symm,
      rest.holds.error.trans rest.holds.noError.symm⟩
  cases st with
  | busy => exact absurd rfl hst
  | fetch => cases h with | fetch rest hs hip => exact hrest rest (Phase.fetch rest hs hip)
  | delay => cases h with | delay rest hs ht hon => exact hrest rest (Phase.delay rest hs ht hon)
  | decode => exact hrest h.rest_of_decode h
  | stopped =>
      have hstop := h.stopped_inv
      exact ⟨hstop.regs, hstop.ram.holds, hstop.call.store, hstop.halt.trans hstop.halted.symm,
        hstop.error⟩

/-- The core is at work in `STATE_DECODE` and in the states that wait for a unit. -/
theorem Phase.working (h : Phase m s st hi lo) :
    s.cpu.working = decide (st = .decode ∨ st = .busy) := by
  by_cases hst : st = .stopped
  · have hh := h.halt_iff.mpr hst
    simp [Cpu.working, hh, hst]
  · have hh := (h.holds hst).halt
    have hs := h.stateNext
    cases st with
    | stopped => exact absurd rfl hst
    | fetch => simp [Cpu.working, hh, hs]
    | delay => simp [Cpu.working, hh, hs]
    | decode => simp [Cpu.working, hh, hs]
    | busy => simp [Cpu.working, hh, hs.1, hs.2]

/-- **`STATE_OP_FETCH_DELAY`** stops the core if the checks refuse the word that has been fetched,
and else fetches it once more and hands over to `STATE_DECODE`. -/
theorem Phase.delay_step (h : Phase m s .delay hi lo) (hr : i.resetNInt = true) :
    (m.rejects s.cpu.instruction = true ∧ Phase m.fail (s.step i) .stopped 0 0)
    ∨ (m.rejects s.cpu.instruction = false ∧ ∃ hi' lo', Phase m (s.step i) .decode hi' lo'
      ∧ (s.step i).cpu.instruction = s.pgm.dataOut) := by
  cases h with
  | delay rest hs ht hon =>
      cases hrej : m.rejects s.cpu.instruction with
      | true =>
          have hstop := step_rejects rest hr hrej
          rw [Machine.exec_of_rejects rest.holds.running hrej] at hstop
          exact Or.inl ⟨rfl, hstop⟩
      | false =>
          have hmove : Move m s (s.step i) True _ _ _ := step_delay rest hs ht hon hr
          cases hmove with
          | stay hi' lo' phase word => exact Or.inr ⟨rfl, hi', lo', phase, word⟩
          | toDelay _ _ _ _ on => rcases on with hc | hc <;> cases hc
          | toFetch _ _ _ _ on => rcases on with hc | hc <;> cases hc
          | stop phase =>
              -- a word that is not refused does not stop the core here
              have hcpu : (s.step i).cpu
                  = s.cpu.opFetchDelay { s.cpu with ticks := s.cpu.ticks + 1 } (s.wires i) := by
                rw [step_cpu hr, run_opFetchDelay rest.holds.halt (by rw [rest.holds.rejects, hrej])
                  hs]
              have hhalt := phase.halt_iff.mpr rfl
              rw [hcpu] at hhalt
              exact absurd (rest.holds.halt.symm.trans hhalt) (by simp)

/-- No `LDDW` is under way where no opcode is kept. -/
theorem Holds.upper_none (h : Holds m s.cpu) (hkeep : s.cpu.keepOp = 0) : m.upper = none := by
  have hk := h.keepOp
  rw [hkeep] at hk
  cases hu : m.upper with
  | none => rfl
  | some d =>
      rw [hu, Option.isSome_some, if_pos rfl] at hk
      exact absurd hk (by decide)

/-- A running core in `STATE_OP_FETCH_DELAY` is in the phase `delay`. -/
theorem Sys.Reachable.delay (h : Reachable s) (hstate : s.cpu.stateNext = .opFetchDelay)
    (hrun : s.cpu.halt = false) : ∃ m hi lo, Phase m s .delay hi lo := by
  rcases h.standing with hs | ⟨m, st, hi, lo, hp⟩
  · rw [hs.state] at hstate
    cases hstate
  · have hlive : st ≠ .stopped := by
      rintro rfl
      rw [hp.stopped_inv.halt] at hrun
      cases hrun
    obtain rfl := (hp.delay_iff hlive).mp hstate
    exact ⟨m, hi, lo, hp⟩

/-- The first cycle of an instruction is the phase `decode` of the machine that the design
shows. -/
theorem Sys.Begins.phase (h : s.Begins) : Phase s.machine s .decode 68 10 := by
  have hkeep := h.lower
  have hstate := h.state
  have hhalt := h.running
  obtain ⟨s', i, hreach, hdelay, rfl⟩ := h.fetched
  have hr : i.resetNInt = true := by
    by_contra hr
    have hrel := (released_of_reset (s := s') (i := i) (by simpa using hr)).state
    rw [hrel] at hstate
    cases hstate
  have hrun : s'.cpu.halt = false := by
    by_contra hstop
    rw [step_cpu hr, Cpu.run, if_pos (by simpa using hstop)] at hhalt
    exact hstop hhalt
  obtain ⟨m, hi, lo, hp⟩ := hreach.delay hdelay hrun
  rcases hp.delay_step (i := i) hr with ⟨_, hstop⟩ | ⟨_, hi', lo', hdecode, _⟩
  · rw [hstop.halt_iff.mpr rfl] at hhalt
    cases hhalt
  · have hup := (hdecode.holds (by simp)).upper_none hkeep
    cases hdecode with
    | decode rest' hs' hon' =>
        rw [← rest'.machine_eq hon' hup]
        exact Phase.decode rest' hs' hon'

/-- The machine with which an instruction begins is the one that the design shows. -/
theorem Sys.Begins.machine_eq (h : s.Begins) (hp : Phase m s .decode hi lo) : m = s.machine := by
  have hup := (hp.holds (by simp)).upper_none h.lower
  cases hp with
  | decode rest _ on => exact rest.machine_eq on hup

/-- **From `STATE_OP_FETCH_DELAY`** the core stops if the word that it has fetched names a register
that does not exist, and else begins the next instruction at the next edge, on the machine that it
has shown so far. -/
theorem Phase.begins_of_delay (hp : Phase m s .delay hi lo) (hreach : Sys.Reachable s)
    (hr : i.resetNInt = true) (hup : m.upper = none) :
    (badRegisters s.cpu.instruction = true ∧ Phase m.fail (s.step i) .stopped 0 0)
    ∨ (badRegisters s.cpu.instruction = false ∧ (s.step i).Begins ∧ (s.step i).machine = m
      ∧ (s.step i).cpu.instruction = s.pgm.dataOut) := by
  have hrejects := Machine.rejects_eq_badRegisters hup s.cpu.instruction
  rcases hp.delay_step hr with ⟨hrej, hstop⟩ | ⟨hacc, hi', lo', hdecode, hword⟩
  · exact Or.inl ⟨hrejects.symm.trans hrej, hstop⟩
  · have hholds := hdecode.holds (by simp)
    have hkeep : (s.step i).cpu.keepOp = 0 := by rw [hholds.keepOp, hup]; rfl
    have hbegins := hreach.begins hp.stateNext hdecode.stateNext hholds.halt hkeep
    exact Or.inr ⟨hrejects.symm.trans hacc, hbegins, (hbegins.machine_eq hdecode).symm, hword⟩

/-- **After a reset** the first instruction begins at the second edge, unless its word or the one
left over from before names a register that does not exist. -/
theorem Released.begins {i' : Inputs} (h : Released s) (hreach : Sys.Reachable s)
    (hr : i.resetNInt = true) (hr' : i'.resetNInt = true)
    (hleft : badRegisters s.cpu.instruction = false)
    (hword : badRegisters s.pgm.dataOut = false) : ((s.step i).step i').Begins := by
  have hup : (s.entry (s.step i).dataMem.mem).upper = none := rfl
  rcases h.step hr rfl with ⟨-, hdelay, hnext⟩ | ⟨hrej, -⟩
  · rcases hdelay.begins_of_delay (hreach.step s i) hr' hup with ⟨hbad, -⟩ | ⟨-, hbegins, -⟩
    · rw [hnext, hword] at hbad
      cases hbad
    · exact hbegins
  · rw [Machine.rejects_eq_badRegisters hup, hleft] at hrej
    cases hrej

/-- No instruction begins after the halt. -/
theorem Stopped.not_begins (h : Stopped m s) (hr : ∀ t, (inp t).resetNInt = true) (t : Nat) :
    ¬ (Sys.run inp s t).Begins := by
  intro hb
  have hhalt := (frozen_run h hr t).1.halt
  rw [hb.running] at hhalt
  cases hhalt

theorem Sys.Begins.rest (h : s.Begins) : Rest s.machine s := h.phase.rest_of_decode

/-- A word that names registers that exist is accepted. -/
theorem Sys.Begins.accepted (h : s.Begins) (hreg : badRegisters s.cpu.instruction = false) :
    Accepted s.machine s.cpu where
  holds := h.rest.holds
  onWord := h.phase.ipNext
  upper := rfl
  accepted := by rw [Machine.rejects_eq_badRegisters rfl, hreg]

/-! ## Working on a word -/

/-- **One edge of the work on a word**: it goes on with the word, or the word is done. -/
theorem Phase.carry {own : Prop} (h : Phase m s st hi lo) (hon : st.onWord)
    (hr : i.resetNInt = true) (hown : own → accesses s.cpu.instruction → i.csrCtl1 = false) :
    (∃ hi' lo', Phase m (s.step i) .busy hi' lo'
      ∧ (s.step i).cpu.instruction = s.cpu.instruction ∧ hi' ≤ hi
      ∧ (own → hi' + lo' < hi + lo))
    ∨ ∃ st' hi' lo', Phase (m.exec s.cpu.instruction) (s.step i) st' hi' lo'
      ∧ (st' = .fetch ∨ st' = .delay ∨ st' = .stopped) := by
  have hmove : Move m s (s.step i) own st hi lo := by
    rcases hon with rfl | rfl
    · cases h with | decode rest hs on => exact step_decode rest hs on hr
    · exact h.step_busy hr hown
  cases hmove with
  | stay hi' lo' phase word le lt =>
      rcases hon with rfl | rfl
      · exact Or.inl ⟨hi', lo', phase, word, le, lt⟩
      · exact Or.inl ⟨hi', lo', phase, word, le, lt⟩
  | toDelay hi' lo' phase => exact Or.inr ⟨_, hi', lo', phase, Or.inr (Or.inl rfl)⟩
  | toFetch hi' lo' phase => exact Or.inr ⟨_, hi', lo', phase, Or.inl rfl⟩
  | stop phase => exact Or.inr ⟨_, 0, 0, phase, Or.inr (Or.inr rfl)⟩

namespace Sys

/-- While the core has been at work since the first cycle, it is still busy with that word. -/
theorem Begins.busy (h : s.Begins) (hr : ∀ t, (inp t).resetNInt = true) (ht : 0 < t)
    (hw : ∀ v, 0 < v → v ≤ t → (run inp s v).cpu.working = true) :
    ∃ hi lo, Phase s.machine (run inp s t) .busy hi lo
      ∧ (run inp s t).cpu.instruction = s.cpu.instruction := by
  -- a word that is done is no longer worked on
  have hdone : ∀ {m' : Machine} {st' : Stage} {v hi lo : Nat}, 0 < v → v ≤ t →
      Phase m' (run inp s v) st' hi lo → ¬ (st' = .fetch ∨ st' = .delay ∨ st' = .stopped) := by
    intro m' st' v hi lo h0 hv hp hst
    have hwork := hp.working
    rw [hw v h0 hv] at hwork
    rcases hst with rfl | rfl | rfl <;> simp at hwork
  induction t with
  | zero => omega
  | succ t ih =>
      rcases Nat.eq_zero_or_pos t with rfl | hpos
      · rcases h.phase.carry (Or.inl rfl) (hr 0) (fun hf : False => hf.elim) with
          ⟨hi', lo', hp, hword, _⟩ | ⟨st', hi', lo', hp, hst⟩
        · exact ⟨hi', lo', hp, hword⟩
        · exact absurd hst (hdone (v := 1) (by omega) (by omega) hp)
      · obtain ⟨hi, lo, hp, hword⟩ := ih hpos (fun v h0 hv => hw v h0 (by omega))
          (fun h0 hv => hdone h0 (by omega))
        rcases hp.carry (Or.inr rfl) (hr t) (fun hf : False => hf.elim) with
          ⟨hi', lo', hp', hword', _⟩ | ⟨st', hi', lo', hp', hst⟩
        · exact ⟨hi', lo', hp', hword'.trans hword⟩
        · exact absurd hst (hdone (v := t + 1) (by omega) (by omega) hp')

/-- **What a finished word has done.** -/
theorem Begins.outcome (h : s.Begins) (hr : ∀ t, (inp t).resetNInt = true)
    (hu : s.Completes inp u) :
    ∃ st hi lo, Phase (s.machine.exec s.cpu.instruction) (run inp s u) st hi lo
      ∧ (st = .fetch ∨ st = .delay ∨ st = .stopped) := by
  -- the last edge is not one that goes on with the word
  have hnot : ∀ {m' : Machine} {hi lo : Nat}, ¬ Phase m' (run inp s u) .busy hi lo := by
    intro m' hi lo hp
    have hwork := hp.working
    rw [hu.done] at hwork
    simp at hwork
  obtain ⟨v, rfl⟩ := Nat.exists_eq_add_of_lt hu.pos
  rw [Nat.zero_add] at hu hnot ⊢
  rcases Nat.eq_zero_or_pos v with rfl | hpos
  · rcases h.phase.carry (Or.inl rfl) (hr 0) (fun hf : False => hf.elim) with
      ⟨hi', lo', hp, _⟩ | hend
    · exact absurd hp hnot
    · exact hend
  · obtain ⟨hi, lo, hp, hword⟩ := h.busy hr hpos (fun w h0 hw => hu.working w h0 (by omega))
    rcases hp.carry (Or.inr rfl) (hr v) (fun hf : False => hf.elim) with
      ⟨hi', lo', hp', _⟩ | hend
    · exact absurd hp' hnot
    · rw [hword] at hend
      exact hend

theorem Begins.shows (h : s.Begins) (hr : ∀ t, (inp t).resetNInt = true)
    (hu : s.Completes inp u) : (run inp s u).Shows (s.machine.exec s.cpu.instruction) := by
  obtain ⟨st, hi, lo, hp, hst⟩ := h.outcome hr hu
  exact hp.shows (by rcases hst with rfl | rfl | rfl <;> simp)

/-- Where a run stands with its first word, for the terms of `VeBpf.Lib.Stutter`: at work on it
one edge later than `t`, or done with it. -/
def Stands (inp : Nat → Inputs) (s : Sys) (t : Nat) (done : Bool) (hi lo : Nat) : Prop :=
  if done then lo ≤ 10 ∧ ∃ u, s.Completes inp u
  else Phase s.machine (run inp s (t + 1)) .busy hi lo
    ∧ (run inp s (t + 1)).cpu.instruction = s.cpu.instruction
    ∧ ∀ v, 0 < v → v ≤ t + 1 → (run inp s v).cpu.working = true

/-- The core owns an edge unless its word waits for a memory that the host holds. -/
theorem follows_word (hr : ∀ t, (inp t).resetNInt = true) :
    Follows (fun _ => true)
      (fun t => accesses s.cpu.instruction → (inp (t + 1)).csrCtl1 = false) 10
      (s.Stands inp) where
  step := by
    intro t done hi lo h
    cases done with
    | true => exact Or.inr ⟨hi, lo, h⟩
    | false =>
        obtain ⟨hp, hword, hwork⟩ := h
        rcases hp.carry (Or.inr rfl) (hr (t + 1))
          (fun (ho : accesses s.cpu.instruction → (inp (t + 1)).csrCtl1 = false) ha =>
            ho (hword ▸ ha)) with
          ⟨hi', lo', hp', hword', hle, hlt⟩ | ⟨st', hi', lo', hp', hst⟩
        · refine Or.inl ⟨hi', lo', ⟨hp', hword'.trans hword, ?_⟩, hle, hlt⟩
          intro v h0 hv
          rcases Nat.lt_or_eq_of_le hv with hv | rfl
          · exact hwork v h0 (by omega)
          · exact hp'.working
        · refine Or.inr ⟨0, 0, Nat.zero_le _, t + 2, by omega, ?_, ?_⟩
          · intro v h0 hv
            exact hwork v h0 (by omega)
          · refine hp'.working.trans ?_
            rcases hst with rfl | rfl | rfl <;> rfl
  low := by
    intro t done hi lo h
    cases done with
    | true => exact h.1
    | false => exact h.1.low

/-- **Every word is done at some time**; one that reads or writes data bytes, if the host lets go
of the memory for eleven edges in a row again and again. -/
theorem Begins.completes (h : s.Begins) (hr : ∀ t, (inp t).resetNInt = true)
    (hy : accesses s.cpu.instruction → Inputs.Yielding inp) : ∃ u, s.Completes inp u := by
  rcases h.phase.carry (Or.inl rfl) (hr 0) (fun hf : False => hf.elim) with
    ⟨hi, lo, hp, hword, _⟩ | ⟨st', hi', lo', hp, hst⟩
  · have hstart : s.Stands inp 0 false hi lo := by
      refine ⟨hp, hword, ?_⟩
      intro v h0 hv
      obtain rfl : v = 1 := by omega
      exact hp.working
    have hfair : Fair (fun t => accesses s.cpu.instruction → (inp (t + 1)).csrCtl1 = false)
        11 := by
      by_cases ha : accesses s.cpu.instruction
      · intro t
        obtain ⟨v, htv, hown⟩ := hy ha (t + 1)
        exact ⟨v - 1, by omega, fun x h1 h2 _ => hown (x + 1) (by omega) (by omega)⟩
      · exact fair_of_always (fun _ hc => absurd hc ha) 11
    obtain ⟨pos, his, los, htrack⟩ := (follows_word hr).exists_track hstart
    obtain ⟨t, ht⟩ := htrack.visits (follows_word hr) hfair 1
    have hdone := htrack.at_pos t
    rw [ht] at hdone
    exact hdone.2
  · refine ⟨1, by omega, fun v h0 hv => by omega, hp.working.trans ?_⟩
    rcases hst with rfl | rfl | rfl <;> rfl

/-- An edge that leaves the core fetching or halted completes the word. -/
theorem completes_one (h : (s.step (inp 0)).cpu.working = false) : s.Completes inp 1 :=
  ⟨by omega, fun v h0 hv => by omega, h⟩

/-- No error is raised before a word is done. -/
theorem Begins.no_error (h : s.Begins) (hr : ∀ t, (inp t).resetNInt = true)
    (hu : s.Completes inp u) {v : Nat} (hv : v < u) : (run inp s v).cpu.error = false := by
  rcases Nat.eq_zero_or_pos v with rfl | hpos
  · exact h.rest.holds.error
  · obtain ⟨hi, lo, hp, _⟩ := h.busy hr hpos (fun w h0 hw => hu.working w h0 (by omega))
    exact (hp.holds (by simp)).error

/-- A word that is done without an error has raised none on the way. -/
theorem Begins.errorless (h : s.Begins) (hr : ∀ t, (inp t).resetNInt = true)
    (hu : s.Completes inp u) (herr : (run inp s u).cpu.error = false) (x : Nat) (hx : x ≤ u) :
    (run inp s x).cpu.error = false := by
  rcases Nat.lt_or_eq_of_le hx with hx | rfl
  · exact h.no_error hr hu hx
  · exact herr

/-! ## What an instruction is said to do -/

/-- **All that the instruction does is set register `d` to `v`**: it completes, no other register
and no data byte changes, and no error is raised. -/
def Sets (inp : Nat → Inputs) (s : Sys) (d : BitVec 4) (v : BitVec 64) : Prop :=
  ∃ u, s.Completes inp u ∧ (run inp s u).cpu.regs = s.cpu.regs.write d v
    ∧ (run inp s u).dataMem.mem = s.dataMem.mem
    ∧ ∀ x, x ≤ u → (run inp s x).cpu.error = false

/-- **The instruction halts the core with an error**, on these registers and the data bytes as
they were. -/
def Fails (inp : Nat → Inputs) (s : Sys) (regs : Regs) : Prop :=
  ∃ u, s.Completes inp u ∧ (run inp s u).cpu.halt = true ∧ (run inp s u).cpu.error = true
    ∧ (run inp s u).cpu.regs = regs ∧ (run inp s u).dataMem.mem = s.dataMem.mem

/-- A finished instruction that the checks accept has done what `dispatch` says. -/
theorem Begins.shows_dispatch (h : s.Begins) (hr : ∀ t, (inp t).resetNInt = true)
    (hreg : badRegisters s.cpu.instruction = false) (hu : s.Completes inp u) :
    (run inp s u).Shows (s.machine.dispatch s.cpu.instruction) := by
  have hshow := h.shows hr hu
  rw [Machine.exec_of_accepted rfl (h.accepted hreg).accepted rfl] at hshow
  exact hshow

/-- A word that only sets a register does so. -/
theorem Begins.sets (h : s.Begins) (hr : ∀ t, (inp t).resetNInt = true)
    (hreg : badRegisters s.cpu.instruction = false) (hu : s.Completes inp u) {d : BitVec 4}
    {v : BitVec 64} (hd : s.machine.dispatch s.cpu.instruction = s.machine.set d v) :
    s.Sets inp d v := by
  have hshow := h.shows_dispatch hr hreg hu
  rw [hd] at hshow
  exact ⟨u, hu, hshow.regs, hshow.mem, h.errorless hr hu hshow.error⟩

/-- What it sets the register to is unique. -/
theorem Begins.sets_iff (h : s.Begins) (hr : ∀ t, (inp t).resetNInt = true)
    (hreg : badRegisters s.cpu.instruction = false) (hu : s.Completes inp u) {v v' : BitVec 64}
    (hd : s.machine.dispatch s.cpu.instruction
      = s.machine.set (dstOf s.cpu.instruction) v) :
    s.Sets inp (dstOf s.cpu.instruction) v' ↔ v' = v := by
  constructor
  · rintro ⟨t, ht, hregs, -, -⟩
    obtain rfl := hu.unique ht
    have hdst : (dstOf s.cpu.instruction).toNat < maxRegs := by
      rw [badRegisters, Bool.or_eq_false_iff, decide_eq_false_iff_not,
        decide_eq_false_iff_not] at hreg
      omega
    have hshow := (h.shows_dispatch hr hreg hu).regs
    rw [hd, Machine.set_regs, hregs] at hshow
    have hread := congrArg (Regs.read · (dstOf s.cpu.instruction)) hshow
    exact ((Regs.read_write_self _ _ _ hdst).symm.trans hread).trans
      (Regs.read_write_self _ _ _ hdst)
  · rintro rfl
    exact h.sets hr hreg hu hd

/-- A word that halts with an error does so. -/
theorem Begins.fails (h : s.Begins) (hr : ∀ t, (inp t).resetNInt = true)
    (hreg : badRegisters s.cpu.instruction = false) (hu : s.Completes inp u) {regs : Regs}
    (hd : s.machine.dispatch s.cpu.instruction = { s.machine with regs := regs }.fail) :
    s.Fails inp regs := by
  have hshow := h.shows_dispatch hr hreg hu
  rw [hd] at hshow
  exact ⟨u, hu, hshow.halt, hshow.error, hshow.regs, hshow.mem⟩

/-! ## A design to try a word on -/

/-- A reset edge with `v` at the first argument port. -/
def resetting (v : BitVec 64) : Inputs := { Inputs.still false with r1 := v }

theorem resetting_resetNInt (v : BitVec 64) : (resetting v).resetNInt = false := by
  simp [resetting, Inputs.resetNInt, Inputs.still]

/-- A design that holds `w` in every program word, after a reset with `v` in `r1`. -/
def fresh (w v : BitVec 64) : Sys := (zero (fun _ => w) fun _ => 0).step (resetting v)

/-- The same design in the first cycle of its first instruction. -/
def trying (w v : BitVec 64) : Sys := run (fun _ => Inputs.still true) (fresh w v) 2

/-- A design with the program `p` in the first cycle of its first instruction. -/
def launched (p : BitVec 9 → BitVec 64) : Sys :=
  run (fun _ => Inputs.still true) ((zero p fun _ => 0).step (Inputs.still false)) 2

/-- A design whose words were all 0 begins the first word of its program, if it is not refused. -/
theorem begins_of_zero {p : BitVec 9 → BitVec 64} {rst : Inputs} (hrst : rst.resetNInt = false)
    (hword : badRegisters ((zero p fun _ => 0).step rst).pgm.dataOut = false) :
    (run (fun _ => Inputs.still true) ((zero p fun _ => 0).step rst) 2).Begins := by
  have hinstr : ((zero p fun _ => 0).step rst).cpu.instruction = 0 := by
    rw [cpu_reset hrst]
    rfl
  have hr := Inputs.still_resetNInt true
  exact (released_of_reset hrst).begins (Reachable.reset _ _ hrst) hr hr
    (by rw [hinstr]; decide) hword

theorem launched_begins {p : BitVec 9 → BitVec 64} (hreg : badRegisters (p 0) = false) :
    (launched p).Begins :=
  begins_of_zero (Inputs.still_resetNInt false) hreg

theorem trying_begins {w v : BitVec 64} (hreg : badRegisters w = false) : (trying w v).Begins :=
  begins_of_zero (resetting_resetNInt v) hreg

end Sys

end VeBpf
