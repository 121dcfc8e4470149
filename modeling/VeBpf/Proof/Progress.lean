import VeBpf.Lib.Within
import VeBpf.Proof.Instructions

/-!
# No deadlock

While the reset is released and the core owns the data memory, every state that a
reset can lead to is soon followed by the beginning of an instruction, or by the
halt. `edgesLeft` is the measure, over the stage of the core, the rank of the unit
it waits for and whether the second slot of an `LDDW` is still to come; every
clock edge lowers it.
-/

namespace VeBpf

variable {m : Machine} {s : Sys} {inp : Nat → Inputs} {i : Inputs} {st : Stage} {hi lo : Nat}

/-! ## The measure -/

/-- Clock edges before the last one to the next instruction, at most. `n` is the rank of the
phase, which counts for a word that a unit works on. -/
def edgesLeft (m : Machine) (n : Nat) : Stage → Nat
  | .stopped => 0
  | .delay => if m.upper.isSome then 3 else 0
  | .fetch => if m.upper.isSome then 4 else 1
  | .decode => if m.upper.isSome then 2 else 69
  | .busy => n + 1

/-- A unit is done after at most 67 edges; a division takes that many. -/
theorem Phase.busy_rank (h : Phase m s .busy hi lo) : 0 < hi + lo ∧ hi + lo ≤ 67 := by
  cases h with
  | load j _ _ _ _ _ ram =>
      have hj := ram.le
      omega
  | store ww _ j h _ _ _ ram =>
      have hj := ram.bound
      have hw := h.width
      omega
  | divRun _ n _ _ _ _ _ _ hn => omega
  | call h =>
      have hwait : s.callHandler.wait s.cpu.callHandlerFunc ≤ 3 := by
        unfold CallHandler.wait
        split_ifs <;> omega
      omega
  | _ => omega

theorem Phase.edgesLeft_le (h : Phase m s st hi lo) : edgesLeft m (hi + lo) st ≤ 69 := by
  cases st with
  | busy =>
      have hrank := h.busy_rank
      show hi + lo + 1 ≤ 69
      omega
  | stopped => exact Nat.zero_le _
  | fetch => simp only [edgesLeft]; split_ifs <;> omega
  | delay => simp only [edgesLeft]; split_ifs <;> omega
  | decode => simp only [edgesLeft]; split_ifs <;> omega

/-- A word that does not stop the core is followed by a fetch; the next word is an instruction
unless this one was the first of an `LDDW`. -/
theorem Phase.edgesLeft_next {s' : Sys} {n hi' lo' : Nat} {st' : Stage} {w : BitVec 64}
    (h : Phase (m.exec w) s' st' hi' lo') (hst : st' = .fetch ∨ st' = .delay) :
    edgesLeft (m.exec w) n st' ≤ 4
    ∧ (m.upper.isSome = true ∨ (opcodeOf w == ebpfOpLddw) = false →
        edgesLeft (m.exec w) n st' ≤ 1) := by
  have hrun : (m.exec w).halt = false :=
    (h.holds (by rcases hst with rfl | rfl <;> simp)).running
  have hup := Machine.exec_upper hrun
  constructor
  · rcases hst with rfl | rfl <;> simp only [edgesLeft] <;> split_ifs <;> omega
  · intro hnot
    have hnone : (m.exec w).upper.isSome = false := by
      rw [hup]
      rcases hnot with hsome | hop
      · rw [hsome]; rfl
      · rw [hop, Bool.and_false]
    rcases hst with rfl | rfl <;> simp [edgesLeft, hnone]

/-- The edge that ends a word lowers the measure. -/
theorem Phase.edgesLeft_lt {s' : Sys} {hi' lo' : Nat} {st' : Stage} (h : Phase m s st hi lo)
    (hon : st.onWord) (hst : st' = .fetch ∨ st' = .delay)
    (hnext : Phase (m.exec s.cpu.instruction) s' st' hi' lo') :
    edgesLeft (m.exec s.cpu.instruction) (hi' + lo') st' < edgesLeft m (hi + lo) st := by
  obtain ⟨hle, hlow⟩ := hnext.edgesLeft_next (n := hi' + lo') hst
  rcases hon with rfl | rfl
  · cases hu : m.upper.isSome with
    | true =>
        have hdecode : edgesLeft m (hi + lo) .decode = 2 := by simp [edgesLeft, hu]
        have hinstr := hlow (Or.inl hu)
        omega
    | false =>
        have hdecode : edgesLeft m (hi + lo) .decode = 69 := by simp [edgesLeft, hu]
        omega
  · have hinstr := hlow (Or.inr h.not_lddw)
    have hbusy : edgesLeft m (hi + lo) .busy = hi + lo + 1 := rfl
    have hrank := h.busy_rank
    omega

/-! ## One clock edge -/

/-- The core has halted or begins an instruction. -/
def Sys.Resolved (s : Sys) : Prop := s.cpu.halt = true ∨ s.Begins

/-- From `STATE_OP_FETCH_DELAY` an instruction begins, or the second slot of an `LDDW`. -/
theorem Phase.delay_progress {hi' lo' : Nat} (h : Phase m s .delay hi lo)
    (hreach : Sys.Reachable s) (hnext : Phase m (s.step i) .decode hi' lo') :
    (s.step i).Resolved ∨ edgesLeft m (hi' + lo') .decode < edgesLeft m (hi + lo) .delay := by
  have hholds := hnext.holds (by simp)
  cases hu : m.upper with
  | some d =>
      right
      simp [edgesLeft, hu]
  | none =>
      have hkeep : (s.step i).cpu.keepOp = 0 := by rw [hholds.keepOp, hu]; rfl
      exact Or.inl (Or.inr (hreach.begins h.stateNext hnext.stateNext hholds.halt hkeep))

/-- **Every edge of a phase lowers the measure**, halts the core or begins an instruction. -/
theorem Phase.progress (h : Phase m s st hi lo) (hreach : Sys.Reachable s)
    (hr : i.resetNInt = true) (hown : i.csrCtl1 = false) :
    (s.step i).Resolved ∨ ∃ m' st' hi' lo', Phase m' (s.step i) st' hi' lo'
      ∧ edgesLeft m' (hi' + lo') st' < edgesLeft m (hi + lo) st := by
  cases h.step hr with
  | stop phase => exact Or.inl (Or.inl (phase.halt_iff.mpr rfl))
  | toDelay hi' lo' phase _ on =>
      exact Or.inr ⟨_, _, hi', lo', phase, h.edgesLeft_lt on (Or.inr rfl) phase⟩
  | toFetch hi' lo' phase _ on =>
      exact Or.inr ⟨_, _, hi', lo', phase, h.edgesLeft_lt on (Or.inl rfl) phase⟩
  | stay hi' lo' phase _ _ lt =>
      have hrank := lt hown
      cases st with
      | stopped => exact Or.inl (Or.inl (phase.halt_iff.mpr rfl))
      | fetch =>
          refine Or.inr ⟨m, .delay, hi', lo', phase, ?_⟩
          cases hu : m.upper <;> simp [edgesLeft, hu]
      | delay =>
          rcases h.delay_progress hreach phase with hres | hlt
          · exact Or.inl hres
          · exact Or.inr ⟨m, .decode, hi', lo', phase, hlt⟩
      | decode =>
          -- a unit has been asked, so this is no upper half
          have hbusy : Phase m (s.step i) .busy hi' lo' := phase
          have hmax := hbusy.busy_rank
          refine Or.inr ⟨m, .busy, hi', lo', phase, ?_⟩
          simp only [edgesLeft, hbusy.busy.1.upper, Option.isSome_none, Bool.false_eq_true,
            if_false]
          omega
      | busy =>
          refine Or.inr ⟨m, .busy, hi', lo', phase, ?_⟩
          show hi' + lo' + 1 < hi + lo + 1
          omega

/-! ## Runs -/

namespace Sys

/-- The run is at most `n + 1` edges from the next instruction. -/
def Due (inp : Nat → Inputs) (s : Sys) (t n : Nat) : Prop :=
  Reachable (run inp s t)
    ∧ ((Released (run inp s t) ∧ n = 1)
      ∨ ∃ m st hi lo, Phase m (run inp s t) st hi lo ∧ n = edgesLeft m (hi + lo) st)

theorem Reachable.due (h : Reachable s) (inp : Nat → Inputs) : ∃ n, n ≤ 69 ∧ s.Due inp 0 n := by
  rcases h.standing with hs | ⟨m, st, hi, lo, hp⟩
  · exact ⟨1, by omega, h, Or.inl ⟨hs, rfl⟩⟩
  · exact ⟨_, hp.edgesLeft_le, h, Or.inr ⟨m, st, hi, lo, hp, rfl⟩⟩

/-- One edge of a run. -/
theorem Due.step {t n : Nat} (h : s.Due inp t n) (hr : (inp t).resetNInt = true)
    (hown : (inp t).csrCtl1 = false) :
    (run inp s (t + 1)).Resolved ∨ ∃ n', n' < n ∧ s.Due inp (t + 1) n' := by
  obtain ⟨hreach, ⟨hrel, rfl⟩ | ⟨m, st, hi, lo, hp, rfl⟩⟩ := h
  · -- the first edge after a reset goes on to the word at the entry
    rcases hrel.step hr rfl with ⟨-, hdelay, -⟩ | ⟨-, hstop⟩
    · exact Or.inr ⟨0, by omega, hreach.step _ _, Or.inr ⟨_, _, _, _, hdelay, rfl⟩⟩
    · exact Or.inl (Or.inl (hstop.halt_iff.mpr rfl))
  · rcases hp.progress hreach hr hown with hres | ⟨m', st', hi', lo', hp', hlt⟩
    · exact Or.inl hres
    · exact Or.inr ⟨_, hlt, hreach.step _ _, Or.inr ⟨m', st', hi', lo', hp', rfl⟩⟩

/-- **No deadlock inside an instruction.** Whatever has happened since the first reset, a core that
is not reset and owns the data memory halts or begins its next instruction within 80 clock edges. -/
theorem no_deadlock (h : Reachable s) (hr : ∀ t, (inp t).resetNInt = true)
    (hown : ∀ t, (inp t).csrCtl1 = false) :
    ∃ u, 0 < u ∧ u ≤ 80 ∧ ((run inp s u).cpu.halt = true ∨ (run inp s u).Begins) := by
  obtain ⟨n, hn, hdue⟩ := h.due inp
  have hwithin : Within (fun u => (run inp s u).Resolved) (n + 1) 0 :=
    Within.of_rank (fun t k hk => hk.step (hr t) (hown t)) hdue
  obtain ⟨u, hpos, hle, hres⟩ := hwithin
  exact ⟨u, hpos, by omega, hres⟩

/-- A division that has just begun. -/
theorem no_deadlock_dividing : ∃ u, 0 < u ∧ u ≤ 80
    ∧ ((run (fun _ => Inputs.still true) (trying 0x3f11000000000000#64 5) u).cpu.halt = true
      ∨ (run (fun _ => Inputs.still true) (trying 0x3f11000000000000#64 5) u).Begins) :=
  no_deadlock (trying_begins (by decide)).reachable (fun _ => Inputs.still_resetNInt true)
    (fun _ => Inputs.still_csrCtl1 true)

end Sys

end VeBpf
