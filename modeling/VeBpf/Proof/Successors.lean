import VeBpf.Proof.Instructions

/-!
# The next instruction

What the registers and the data memory show when a word is done is what the next
instruction finds when it begins: the core fetches in between, and changes
nothing. So what two instructions do one after the other is what they do each.
-/

namespace VeBpf

variable {m m' : Machine} {s : Sys} {inp : Nat → Inputs} {i : Inputs} {st : Stage}
  {hi lo t u v : Nat}

/-! ## Where an instruction begins -/

/-- A core that waits for a unit, or has its answer, is not at rest in `STATE_DECODE`. -/
theorem Phase.not_rest_of_busy (h : Phase m s .busy hi lo) (rest : Rest m' s)
    (hstate : s.cpu.stateNext = .decode) : False := by
  have hdata := rest.data.taken
  have hdiv := rest.div.taken
  have hshift := rest.shift.stb
  cases h with
  | loadStart _ hs => rw [hs] at hstate; cases hstate
  | load _ _ hs => rw [hs] at hstate; cases hstate
  | loadDone _ _ _ taken => rw [taken] at hdata; cases hdata
  | storeStart _ _ _ hs => rw [hs] at hstate; cases hstate
  | store _ _ _ _ hs => rw [hs] at hstate; cases hstate
  | storeDone _ _ _ _ _ _ taken => rw [taken] at hdata; cases hdata
  | divStart _ _ hs => rw [hs] at hstate; cases hstate
  | divRun _ _ _ hs => rw [hs] at hstate; cases hstate
  | divZero _ _ hs => rw [hs] at hstate; cases hstate
  | divDone _ _ _ _ taken => rw [taken] at hdiv; cases hdiv
  | shiftStart _ h => rw [h.stb] at hshift; cases hshift
  | shiftLoaded _ h => rw [h.stb] at hshift; cases hshift
  | shiftDone _ h => rw [h.stb] at hshift; cases hshift
  | call h => rw [h.state] at hstate; cases hstate

/-- An instruction begins in the phase `decode` only. -/
theorem Sys.Begins.stage (h : s.Begins) (hp : Phase m s st hi lo) : st = .decode := by
  have hstate := h.state
  have hs := hp.stateNext
  cases st with
  | fetch => exact absurd (hs.symm.trans hstate) (by simp)
  | delay => exact absurd (hs.symm.trans hstate) (by simp)
  | decode => rfl
  | busy => exact (hp.not_rest_of_busy h.rest hstate).elim
  | stopped => exact absurd (h.running.symm.trans hp.stopped_inv.halt) (by simp)

theorem Phase.not_begins (hp : Phase m s st hi lo) (hst : st ≠ .decode) : ¬ s.Begins :=
  fun h => hst (h.stage hp)

/-- **From `STATE_OP_FETCH`** the core goes on to `STATE_OP_FETCH_DELAY`, or stops. -/
theorem Phase.delay_of_fetch (hp : Phase m s .fetch hi lo) (hr : i.resetNInt = true) :
    (∃ m', Phase m' (s.step i) .stopped 0 0) ∨ ∃ hi' lo', Phase m (s.step i) .delay hi' lo' := by
  cases hp with
  | fetch rest hs hip =>
      have hmove : Move m s (s.step i) True .fetch 70 10 := step_fetch rest hs hip hr
      cases hmove with
      | stay hi' lo' phase => exact Or.inr ⟨hi', lo', phase⟩
      | toDelay _ _ _ _ on => rcases on with hc | hc <;> cases hc
      | toFetch _ _ _ _ on => rcases on with hc | hc <;> cases hc
      | stop phase => exact Or.inl ⟨_, phase⟩

namespace Sys

/-- **The next instruction begins at `v`**: one begins there, and none since the first. -/
structure Next (inp : Nat → Inputs) (s : Sys) (v : Nat) : Prop where
  pos : 0 < v
  begins : (run inp s v).Begins
  first : ∀ x, 0 < x → x < v → ¬ (run inp s x).Begins

theorem Next.unique (h : s.Next inp t) (h' : s.Next inp v) : t = v := by
  rcases Nat.lt_trichotomy t v with hlt | heq | hlt
  · exact absurd h.begins (h'.first t h.pos hlt)
  · exact heq
  · exact absurd h'.begins (h.first v h'.pos hlt)

/-- The core has halted, and nothing has begun since the first instruction nor will. -/
structure Ended (inp : Nat → Inputs) (s : Sys) (x : Nat) : Prop where
  halt : (run inp s x).cpu.halt = true
  none : ∀ y, 0 < y → ¬ (run inp s y).Begins

/-- While a word is worked on, and at the edge that ends it, nothing begins. -/
theorem Begins.quiet (h : s.Begins) (hr : ∀ t, (inp t).resetNInt = true)
    (hu : s.Completes inp u) (hv : 0 < v) (hvu : v ≤ u) : ¬ (run inp s v).Begins := by
  rcases Nat.lt_or_eq_of_le hvu with hlt | rfl
  · obtain ⟨hi, lo, hp, -⟩ := h.busy hr hv (fun w h0 hw => hu.working w h0 (by omega))
    exact hp.not_begins (by simp)
  · intro hb
    have hdone := hb.phase.working
    rw [hu.done] at hdone
    cases hdone

theorem ended_of_stopped (hr : ∀ t, (inp t).resetNInt = true)
    (hquiet : ∀ v, 0 < v → v < u → ¬ (run inp s v).Begins)
    (hp : Phase m (run inp s u) .stopped 0 0) : s.Ended inp u := by
  refine ⟨hp.stopped_inv.halt, ?_⟩
  intro y hy
  rcases Nat.lt_or_ge y u with hlt | hge
  · exact hquiet y hy hlt
  · obtain ⟨x, rfl⟩ := Nat.exists_eq_add_of_le hge
    rw [run_add]
    exact hp.stopped_inv.not_begins (fun t => hr (u + t)) x

/-- From `STATE_OP_FETCH_DELAY` at `u` to the next instruction. -/
theorem next_of_delay (hreach : Reachable s) (hr : ∀ t, (inp t).resetNInt = true) (hu : 0 < u)
    (hquiet : ∀ v, 0 < v → v < u → ¬ (run inp s v).Begins)
    (hp : Phase m (run inp s u) .delay hi lo) (hup : m.upper = none) :
    (∃ x, s.Ended inp x) ∨ (s.Next inp (u + 1) ∧ (run inp s (u + 1)).machine = m) := by
  have hquiet' : ∀ v, 0 < v → v < u + 1 → ¬ (run inp s v).Begins := by
    intro v h0 hv
    rcases Nat.lt_or_eq_of_le (Nat.lt_succ_iff.mp hv) with hlt | rfl
    · exact hquiet v h0 hlt
    · exact hp.not_begins (by simp)
  rcases hp.begins_of_delay (hreach.after inp u) (hr u) hup with
    ⟨-, hstop⟩ | ⟨-, hbegins, hmachine, -⟩
  · exact Or.inl ⟨u + 1, ended_of_stopped hr hquiet' hstop⟩
  · exact Or.inr ⟨⟨by omega, hbegins, hquiet'⟩, hmachine⟩

/-- **After a word that is done** the core halts for good, or the next instruction begins on what
the word has left. -/
theorem Begins.next_of_completes (h : s.Begins) (hr : ∀ t, (inp t).resetNInt = true)
    (hop : opcodeOf s.cpu.instruction ≠ ebpfOpLddw) (hu : s.Completes inp u) :
    (∃ x, s.Ended inp x)
    ∨ ∃ v, s.Next inp v ∧ (run inp s v).machine = s.machine.exec s.cpu.instruction := by
  have hreach := h.reachable
  have hquiet : ∀ v, 0 < v → v < u → ¬ (run inp s v).Begins :=
    fun v h0 hv => h.quiet hr hu h0 (by omega)
  obtain ⟨st, hi, lo, hp, hst⟩ := h.outcome hr hu
  by_cases hstop : st = .stopped
  · subst hstop
    obtain ⟨rfl, rfl⟩ : hi = 0 ∧ lo = 0 := by cases hp with | stopped => exact ⟨rfl, rfl⟩
    exact Or.inl ⟨u, ended_of_stopped hr hquiet hp⟩
  -- the machine is running and has no `LDDW` under way
  have hholds := hp.holds hstop
  have hup : (s.machine.exec s.cpu.instruction).upper = none := by
    have hsome := Machine.exec_upper hholds.running
    rw [beq_eq_false_iff_ne.mpr hop, Bool.and_false] at hsome
    exact Option.isNone_iff_eq_none.mp (by simp [← Option.not_isSome, hsome])
  rcases hst with rfl | rfl | rfl
  · rcases hp.delay_of_fetch (hr u) with ⟨m', hend⟩ | ⟨hi', lo', hdelay⟩
    · refine Or.inl ⟨u + 1, ended_of_stopped hr ?_ hend⟩
      intro v h0 hv
      exact h.quiet hr hu h0 (by omega)
    · have hnext := next_of_delay hreach hr (u := u + 1) (by omega)
        (fun v h0 hv => h.quiet hr hu h0 (by omega)) hdelay hup
      exact hnext.imp id fun hn => ⟨u + 1 + 1, hn⟩
  · have hnext := next_of_delay hreach hr hu.pos hquiet hp hup
    exact hnext.imp id fun hn => ⟨u + 1, hn⟩
  · exact absurd rfl hstop

/-- A word that another one follows is done. -/
theorem Begins.completes_of_next (h : s.Begins) (hr : ∀ t, (inp t).resetNInt = true)
    (hn : s.Next inp v) : ∃ u, s.Completes inp u := by
  -- else the core would still be busy with it where the next one begins
  have hdone : ∃ x, 0 < x ∧ (run inp s x).cpu.working = false := by
    by_contra hnone
    push Not at hnone
    obtain ⟨hi, lo, hp, -⟩ := h.busy hr hn.pos fun x h0 _ => by simpa using hnone x h0
    exact hp.not_begins (by simp) hn.begins
  obtain ⟨hpos, hstop⟩ := Nat.find_spec hdone
  refine ⟨Nat.find hdone, hpos, ?_, hstop⟩
  intro x h0 hx
  have hmin := Nat.find_min hdone hx
  rw [not_and, Bool.not_eq_false] at hmin
  exact hmin h0

/-- **What the next instruction finds** is what `exec` makes of the word before it, and no error
has been raised on the way. -/
theorem Begins.next_machine (h : s.Begins) (hr : ∀ t, (inp t).resetNInt = true)
    (hop : opcodeOf s.cpu.instruction ≠ ebpfOpLddw) (hn : s.Next inp v) :
    (run inp s v).machine = s.machine.exec s.cpu.instruction := by
  obtain ⟨u, hu⟩ := h.completes_of_next hr hn
  rcases h.next_of_completes hr hop hu with ⟨x, hend⟩ | ⟨t, ht, hmachine⟩
  · exact absurd hn.begins (hend.none v hn.pos)
  · obtain rfl := ht.unique hn
    exact hmachine

/-- No error is raised before an instruction that begins. -/
theorem Reachable.errorless_of_begins (h : Reachable s) (hr : ∀ t, (inp t).resetNInt = true)
    (hb : (run inp s v).Begins) {x : Nat} (hx : x ≤ v) : (run inp s x).cpu.error = false := by
  by_contra herr
  obtain ⟨y, rfl⟩ := Nat.exists_eq_add_of_le hx
  have hhalt := (h.after inp x).halt_of_error (by simpa using herr)
  obtain ⟨m, hs⟩ := (h.after inp x).stopped hhalt
  have hkept := (frozen_run hs (fun t => hr (x + t)) y).2.halt
  rw [← run_add, hb.running, hhalt] at hkept
  cases hkept

/-- An instruction that completes is followed by another one, or the core halts. -/
theorem Begins.next_exists (h : s.Begins) (hr : ∀ t, (inp t).resetNInt = true)
    (hop : opcodeOf s.cpu.instruction ≠ ebpfOpLddw)
    (hy : accesses s.cpu.instruction → Inputs.Yielding inp) :
    (∃ x, (run inp s x).cpu.halt = true) ∨ ∃ v, s.Next inp v := by
  obtain ⟨u, hu⟩ := h.completes hr hy
  rcases h.next_of_completes hr hop hu with ⟨x, hend⟩ | ⟨v, hv, -⟩
  · exact Or.inl ⟨x, hend.halt⟩
  · exact Or.inr ⟨v, hv⟩

/-! ## Two instructions -/

/-- **If the next instruction is one of `P`, all that the two do is set register `d` to `v`**: it
completes, no other register and no data byte has changed, and no error has been raised. -/
def NextSets (inp : Nat → Inputs) (s : Sys) (P : BitVec 64 → Prop) (d : BitVec 4)
    (v : BitVec 64) : Prop :=
  ∀ t, s.Next inp t → P (run inp s t).cpu.instruction →
    ∃ u, (run inp s t).Completes (fun x => inp (t + x)) u
      ∧ (run inp s (t + u)).cpu.regs = s.cpu.regs.write d v
      ∧ (run inp s (t + u)).dataMem.mem = s.dataMem.mem
      ∧ ∀ x, x ≤ t + u → (run inp s x).cpu.error = false

/-- Two words that set the same register. -/
theorem Begins.next_sets {P : BitVec 64 → Prop} {d : BitVec 4} {v₀ v : BitVec 64} (h : s.Begins)
    (hr : ∀ t, (inp t).resetNInt = true) (hreg : badRegisters s.cpu.instruction = false)
    (hop : opcodeOf s.cpu.instruction ≠ ebpfOpLddw)
    (hfirst : s.machine.dispatch s.cpu.instruction = s.machine.set d v₀)
    (hsecond : ∀ w, P w → badRegisters w = false ∧ ¬ accesses w
      ∧ (s.machine.set d v₀).dispatch w = (s.machine.set d v₀).set d v) :
    s.NextSets inp P d v := by
  intro t hnext hp
  obtain ⟨hreg', haccess, hset⟩ := hsecond _ hp
  have hr' : ∀ x, (inp (t + x)).resetNInt = true := fun x => hr (t + x)
  -- the second word finds what the first has made of the machine
  have hmachine : (run inp s t).machine = s.machine.set d v₀ := by
    rw [h.next_machine hr hop hnext, Machine.exec_of_accepted rfl (h.accepted hreg).accepted rfl,
      hfirst]
  have hregs : (run inp s t).cpu.regs = s.cpu.regs.write d v₀ := congrArg Machine.regs hmachine
  have hmem : (run inp s t).dataMem.mem = s.dataMem.mem := congrArg Machine.mem hmachine
  rw [← hmachine] at hset
  obtain ⟨u, hu⟩ := hnext.begins.completes hr' fun ha => absurd ha haccess
  obtain ⟨u, hu, hregs', hmem', herr⟩ := hnext.begins.sets hr' hreg' hu hset
  rw [← run_add] at hregs' hmem'
  refine ⟨u, hu, ?_, hmem'.trans hmem, ?_⟩
  · rw [hregs', hregs, Regs.write_write]
  · intro x hx
    rcases Nat.lt_or_ge x t with hlt | hge
    · exact h.reachable.errorless_of_begins hr hnext.begins (by omega)
    · obtain ⟨y, rfl⟩ := Nat.exists_eq_add_of_le hge
      rw [run_add]
      exact herr y (by omega)

end Sys

end VeBpf
