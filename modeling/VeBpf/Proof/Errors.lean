import VeBpf.Isa.Illegal
import VeBpf.Proof.Instructions

/-!
# Errors

When the core raises an error, and what it leaves behind. The word at hand is one
that the core is about to execute: it stands in `instruction` in the first
`STATE_DECODE` cycle, or in `STATE_OP_FETCH_DELAY` with the program memory offering
it once more.
-/

namespace VeBpf

variable {m : Machine} {s : Sys} {w : BitVec 64} {inp : Nat → Inputs} {i : Inputs} {t u : Nat}

namespace Sys

/-- `w` is the word that is executed next, and no `LDDW` is under way. -/
inductive Faces (s : Sys) (w : BitVec 64) : Prop
  | first (begins : s.Begins) (word : s.cpu.instruction = w)
  | fetched (reachable : Reachable s) (state : s.cpu.stateNext = .opFetchDelay)
      (running : s.cpu.halt = false) (lower : s.cpu.keepOp = 0) (word : s.cpu.instruction = w)
      (again : s.pgm.dataOut = w)

/-! ## One clock earlier -/

/-- When a core is at work after the first edge, the word is done one edge later than seen from
there. -/
theorem completes_succ (hwork : (run inp s 1).cpu.working = true) (hu : s.Completes inp u) :
    ∃ v, u = v + 1 ∧ (run inp s 1).Completes (fun t => inp (1 + t)) v := by
  obtain ⟨v, rfl⟩ := Nat.exists_eq_add_of_lt hu.pos
  rw [Nat.zero_add] at hu ⊢
  have hpos : 0 < v := by
    rcases Nat.eq_zero_or_pos v with rfl | hpos
    · have hdone := hu.done
      rw [Nat.zero_add, hwork] at hdone
      cases hdone
    · exact hpos
  refine ⟨v, rfl, hpos, ?_, ?_⟩
  · intro x h0 hx
    rw [← run_add]
    exact hu.working (1 + x) (by omega) (by omega)
  · rw [← run_add, Nat.add_comm 1 v]
    exact hu.done

theorem completes_of_succ (hwork : (run inp s 1).cpu.working = true)
    (hu : (run inp s 1).Completes (fun t => inp (1 + t)) u) : s.Completes inp (u + 1) := by
  refine ⟨by omega, ?_, ?_⟩
  · intro v h0 hv
    rcases Nat.lt_or_ge 1 v with h1 | h1
    · obtain ⟨x, rfl⟩ := Nat.exists_eq_add_of_lt h1
      have hx := hu.working (x + 1) (by omega) (by omega)
      rw [← run_add] at hx
      exact hx
    · obtain rfl : v = 1 := by omega
      exact hwork
  · have hdone := hu.done
    rw [← run_add, Nat.add_comm 1 u] at hdone
    exact hdone

/-! ## What is left when a word is done -/

/-- The word is done without an error, or has raised one that leaves the registers and the data
bytes as they were, but for the destination of a quotient by zero. -/
structure EndsWell (inp : Nat → Inputs) (s : Sys) (w : BitVec 64) (u : Nat) : Prop where
  error : (run inp s u).cpu.error = true ↔ illegal s.cpu.regs w = true
  before : ∀ v, v < u → (run inp s v).cpu.error = false
  halt : (run inp s u).cpu.error = true → (run inp s u).cpu.halt = true
  regs : (run inp s u).cpu.error = true → (run inp s u).cpu.regs = leftBehind s.cpu.regs w
  mem : (run inp s u).cpu.error = true → (run inp s u).dataMem.mem = s.dataMem.mem

/-- A word that names a register that does not exist is illegal. -/
theorem illegal_of_badRegisters {r : Regs} (h : badRegisters w = true) :
    illegal r w = true ∧ leftBehind r w = r := by
  rw [illegal, leftBehind, h]
  exact ⟨rfl, if_neg (by simp)⟩

/-- What `exec` makes of a word that starts an instruction. -/
theorem exec_error (s : Sys) (hop : opcodeOf w ≠ ebpfOpLddw) :
    ((s.machine.exec w).error = true ↔ illegal s.cpu.regs w = true)
    ∧ ((s.machine.exec w).error = true → (s.machine.exec w).mem = s.dataMem.mem
      ∧ (s.machine.exec w).regs = leftBehind s.cpu.regs w) := by
  have hrejects : s.machine.rejects w = badRegisters w := Machine.rejects_eq_badRegisters rfl w
  cases hreg : badRegisters w with
  | true =>
      rw [Machine.exec_of_rejects rfl (hrejects.trans hreg), (illegal_of_badRegisters hreg).1,
        (illegal_of_badRegisters hreg).2]
      exact ⟨iff_of_true rfl rfl, fun _ => ⟨rfl, rfl⟩⟩
  | false =>
      rw [Machine.exec_of_accepted rfl (hrejects.trans hreg) rfl]
      exact Machine.dispatch_error rfl hop hreg

/-- An instruction that is done has raised an error exactly if its word is illegal. -/
theorem Begins.ends_well (h : s.Begins) (hr : ∀ t, (inp t).resetNInt = true)
    (hop : opcodeOf s.cpu.instruction ≠ ebpfOpLddw) (hu : s.Completes inp u) :
    s.EndsWell inp s.cpu.instruction u := by
  have hshow := h.shows hr hu
  obtain ⟨hiff, hleft⟩ := s.exec_error hop
  refine ⟨by rw [hshow.error, hiff], fun v hv => h.no_error hr hu hv,
    (h.reachable.after inp u).halt_of_error, ?_, ?_⟩
  · intro he
    rw [hshow.error] at he
    exact hshow.regs.trans (hleft he).2
  · intro he
    rw [hshow.error] at he
    exact hshow.mem.trans (hleft he).1

/-- **What comes of a word fetched early**: the checks refuse it, or its instruction begins at the
next edge on the same registers and data bytes. -/
theorem Reachable.fetched_step (hreach : Reachable s) (hr : i.resetNInt = true)
    (hstate : s.cpu.stateNext = .opFetchDelay) (hrun : s.cpu.halt = false)
    (hkeep : s.cpu.keepOp = 0) :
    (s.step i).cpu.regs = s.cpu.regs ∧ (s.step i).dataMem.mem = s.dataMem.mem
    ∧ s.cpu.error = false
    ∧ ((badRegisters s.cpu.instruction = true ∧ (s.step i).cpu.halt = true
        ∧ (s.step i).cpu.error = true)
      ∨ (badRegisters s.cpu.instruction = false ∧ (s.step i).Begins
        ∧ (s.step i).cpu.instruction = s.pgm.dataOut)) := by
  obtain ⟨m, hi, lo, hp⟩ := hreach.delay hstate hrun
  have hholds := hp.holds (by simp)
  have hshow := hp.shows (by simp)
  rcases hp.begins_of_delay hreach hr (hholds.upper_none hkeep) with
    ⟨hbad, hstop⟩ | ⟨hgood, hbegins, hmachine, hword⟩
  · have hstopped := hstop.shows (by simp)
    exact ⟨hstopped.regs.trans hshow.regs.symm, hstopped.mem.trans hshow.mem.symm, hholds.error,
      Or.inl ⟨hbad, hstopped.halt, hstopped.error⟩⟩
  · subst hmachine
    exact ⟨hshow.regs.symm, hshow.mem.symm, hholds.error, Or.inr ⟨hgood, hbegins, hword⟩⟩

/-- A word that is refused at once ends well. -/
theorem ends_well_of_refused (herr : s.cpu.error = false) (hbad : badRegisters w = true)
    (hhalt : (run inp s 1).cpu.halt = true) (herror : (run inp s 1).cpu.error = true)
    (hregs : (run inp s 1).cpu.regs = s.cpu.regs)
    (hmem : (run inp s 1).dataMem.mem = s.dataMem.mem) : s.EndsWell inp w 1 := by
  refine ⟨iff_of_true herror (illegal_of_badRegisters hbad).1, ?_, fun _ => hhalt,
    fun _ => ?_, fun _ => hmem⟩
  · intro v hv
    obtain rfl : v = 0 := by omega
    exact herr
  · rw [(illegal_of_badRegisters hbad).2]
    exact hregs

/-- A word that ends well as seen from the next edge does so as seen from here. -/
theorem EndsWell.later {v : Nat} (h : (run inp s 1).EndsWell (fun t => inp (1 + t)) w v)
    (herr : s.cpu.error = false) (hregs : (run inp s 1).cpu.regs = s.cpu.regs)
    (hmem : (run inp s 1).dataMem.mem = s.dataMem.mem) : s.EndsWell inp w (v + 1) := by
  have hrun : ∀ x, run (fun t => inp (1 + t)) (run inp s 1) x = run inp s (x + 1) := by
    intro x
    rw [Nat.add_comm x 1, run_add]
  refine ⟨by rw [← hrun, h.error, hregs], ?_, ?_, ?_, ?_⟩
  · intro x hx
    rcases Nat.eq_zero_or_pos x with rfl | hpos
    · exact herr
    · have hx' := h.before (x - 1) (by omega)
      rwa [hrun, show x - 1 + 1 = x by omega] at hx'
  · rw [← hrun]
    exact h.halt
  · intro he
    rw [← hrun] at he ⊢
    rw [h.regs he, hregs]
  · intro he
    rw [← hrun] at he ⊢
    rw [h.mem he, hmem]

/-- Who gets the data memory again and again does so from the next edge on too. -/
theorem yielding_later (hy : Inputs.Yielding inp) : Inputs.Yielding fun t => inp (1 + t) := by
  intro t
  obtain ⟨u, htu, hown⟩ := hy (1 + t)
  exact ⟨u - 1, by omega, fun v h1 h2 => hown (1 + v) (by omega) (by omega)⟩

/-- A word at hand is done at some time, and then has raised an error exactly if it is illegal. -/
theorem Faces.ends_well (h : s.Faces w) (hr : ∀ t, (inp t).resetNInt = true)
    (hop : opcodeOf w ≠ ebpfOpLddw) :
    ((accesses w → Inputs.Yielding inp) → ∃ u, s.Completes inp u)
    ∧ ∀ u, s.Completes inp u → s.EndsWell inp w u := by
  cases h with
  | first begins word =>
      subst word
      exact ⟨begins.completes hr, fun u hu => begins.ends_well hr hop hu⟩
  | fetched reachable state running lower word again =>
      obtain ⟨hregs, hmem, herr, hbad | hgood⟩ :=
        reachable.fetched_step (i := inp 0) (hr 0) state running lower
      · rw [word] at hbad
        obtain ⟨hbad, hhalt, herror⟩ := hbad
        have hone : s.Completes inp 1 := completes_one (by simp [Cpu.working, hhalt])
        refine ⟨fun _ => ⟨1, hone⟩, ?_⟩
        intro u hu
        obtain rfl := hu.unique hone
        exact ends_well_of_refused herr hbad hhalt herror hregs hmem
      · obtain ⟨-, hbegins, hword⟩ := hgood
        -- its instruction begins at the next edge, with the same registers and bytes
        have hwork : (run inp s 1).cpu.working = true := hbegins.phase.working
        rw [again] at hword
        have hr' : ∀ t, (inp (1 + t)).resetNInt = true := fun t => hr (1 + t)
        constructor
        · intro hy
          obtain ⟨u, hu⟩ := hbegins.completes hr' (by
            rw [hword]
            exact fun ha => yielding_later (hy ha))
          exact ⟨u + 1, completes_of_succ hwork hu⟩
        · intro u hu
          obtain ⟨v, rfl, hv⟩ := completes_succ hwork hu
          have hend := hbegins.ends_well hr' (by rw [hword]; exact hop) hv
          rw [hword] at hend
          exact EndsWell.later hend herr hregs hmem

/-! ## Nothing is started for a register that does not exist -/

/-- No access, division, shift or call is asked for. -/
structure Strobeless (c : Cpu) : Prop where
  data : c.dataStb = false
  div : c.div64Stb = false
  shift : c.arsh64Stb = false
  call : c.callHandlerStb = false

/-- A halted core changes nothing but `state_next`. -/
theorem cpu_of_halt (hhalt : s.cpu.halt = true) (hr : ∀ t, (inp t).resetNInt = true) (t : Nat) :
    ∃ st, (run inp s t).cpu = { s.cpu with stateNext := st } := by
  induction t with
  | zero => exact ⟨s.cpu.stateNext, rfl⟩
  | succ t ih =>
      obtain ⟨st, hcpu⟩ := ih
      refine ⟨.halt, ?_⟩
      rw [run, step_cpu (hr t), Cpu.run, hcpu, if_pos hhalt]

/-- A core that refuses the word in `instruction` starts nothing for it. -/
theorem strobeless_of_rejects (hs : Strobeless s.cpu) (hhalt : s.cpu.halt = false)
    (hrej : s.cpu.rejects = true) (hr : ∀ t, (inp t).resetNInt = true) (t : Nat) :
    Strobeless (run inp s t).cpu := by
  rcases Nat.eq_zero_or_pos t with rfl | hpos
  · exact hs
  · obtain ⟨v, rfl⟩ : ∃ v, t = 1 + v := ⟨t - 1, by omega⟩
    have hfault : (run inp s 1).cpu = s.cpu.fault := by
      rw [run, run, step_cpu (hr 0), run_rejects hhalt hrej]
    have hhalted : (run inp s 1).cpu.halt = true := by rw [hfault]; rfl
    obtain ⟨st, hcpu⟩ := cpu_of_halt hhalted (fun t => hr (1 + t)) v
    rw [run_add, hcpu, hfault]
    exact ⟨hs.data, hs.div, hs.shift, hs.call⟩

theorem Rest.strobeless (h : Rest m s) : Strobeless s.cpu :=
  ⟨h.data.stb, h.div.stb, h.shift.stb, h.call.stb⟩

/-- Between two instructions nothing is asked for, and the word at hand is refused exactly if it
names a register that does not exist. -/
theorem Faces.at_rest (h : s.Faces w) :
    Strobeless s.cpu ∧ s.cpu.halt = false ∧ s.cpu.rejects = badRegisters w := by
  have hrejects : ∀ {m : Machine}, Rest m s → s.cpu.keepOp = 0 → s.cpu.instruction = w →
      s.cpu.rejects = badRegisters w := by
    intro m rest hkeep hword
    rw [rest.holds.rejects, Machine.rejects_eq_badRegisters (rest.holds.upper_none hkeep), hword]
  cases h with
  | first begins word =>
      exact ⟨Rest.strobeless begins.rest, begins.running, hrejects begins.rest begins.lower word⟩
  | fetched reachable state running lower word =>
      obtain ⟨m, hi, lo, hp⟩ := reachable.delay state running
      cases hp with
      | delay rest => exact ⟨Rest.strobeless rest, running, hrejects rest lower word⟩

/-- **Illegal words are found exactly and leave the state intact.** From a state that faces a word
other than `LDDW` the word is done at some time, and by then an error has been raised exactly if
the word is illegal; it leaves all registers and data bytes as they were, but for the destination of
a quotient by zero. A word that names a register that does not exist starts no access, division,
shift or call. -/
theorem errors_exact (h : s.Faces w) (hr : ∀ t, (inp t).resetNInt = true)
    (hop : opcodeOf w ≠ ebpfOpLddw) :
    ((accesses w → Inputs.Yielding inp) → ∃ u, s.Completes inp u)
    ∧ (∀ u, s.Completes inp u → s.EndsWell inp w u)
    ∧ (badRegisters w = true → ∀ t, Strobeless (run inp s t).cpu) := by
  obtain ⟨hdone, hends⟩ := h.ends_well hr hop
  obtain ⟨hstrobes, hhalt, hrejects⟩ := h.at_rest
  exact ⟨hdone, hends, fun hbad t =>
    strobeless_of_rejects hstrobes hhalt (hrejects.trans hbad) hr t⟩

/-- `DIV64 r1, r0` by zero clears `r1` and raises an error. -/
theorem errors_exact_div :
    ∃ u, (run (fun _ => Inputs.still true) (trying 0x3f01000000000000#64 23) u).cpu.error = true
      ∧ (run (fun _ => Inputs.still true) (trying 0x3f01000000000000#64 23) u).cpu.regs
        = (trying 0x3f01000000000000#64 23).cpu.regs.write 1 0 := by
  have hfaces : (trying 0x3f01000000000000#64 23).Faces 0x3f01000000000000#64 :=
    Faces.first (trying_begins (by decide)) (by decide)
  have hexact := errors_exact hfaces (fun _ => Inputs.still_resetNInt true) (by decide)
  have haccess : ¬ accesses 0x3f01000000000000#64 := by
    rw [accesses]
    decide
  obtain ⟨u, hu⟩ := hexact.1 fun ha => absurd ha haccess
  have hend := hexact.2.1 u hu
  have herr := hend.error.mpr (by decide)
  exact ⟨u, herr, hend.regs herr⟩

end Sys

end VeBpf
