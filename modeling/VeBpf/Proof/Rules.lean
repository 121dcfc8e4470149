import VeBpf.Lib.Leads
import VeBpf.Proof.Unexecuted

/-!
# Proving programs

A program is proved on the architecture, one rule for each kind of instruction, and
the core then does the same: after a reset of three edges it differs from the
architecture only behind a jump that strays. That holds of programs that end and of
programs that run on for ever.
-/

namespace VeBpf

namespace Machine

variable {pm : Program} {m : Machine} {w : BitVec 64} {Q : Machine → Prop}

/-! ## What single instructions do -/

theorem dispatch_movImm (h : opcodeOf w = ebpfOpMovImm) :
    m.dispatch w = m.set (dstOf w) ((immediateOf w).setWidth 64) := by
  rw [dispatch_alu (Or.inl (by rw [h]; decide)), aluWork, h]
  rfl

theorem dispatch_mov64Imm (h : opcodeOf w = ebpfOpMov64Imm) :
    m.dispatch w = m.set (dstOf w) ((immediateOf w).setWidth 64) := by
  rw [dispatch_alu (Or.inr (by rw [h]; decide)), aluWork, h]
  rfl

theorem dispatch_be {v : BitVec 64} (h : opcodeOf w = ebpfOpBe)
    (hv : beArm (m.regs.read (dstOf w)) (immediateOf w) = some v) :
    m.dispatch w = m.set (dstOf w) v := by
  have hres : (m.aluWork w).res = some v := by
    rw [aluWork, h, ← hv]
    rfl
  rw [dispatch_alu (Or.inl (by rw [h]; decide)), hres, aluWork, h]
  rfl

theorem dispatch_exit (h : opcodeOf w = ebpfOpExit) : m.dispatch w = { m with halt := true } := by
  rw [dispatch_jmp (by rw [h]; decide), jump, if_neg (by rw [h]; decide), if_pos h]

theorem dispatch_jeqImm (h : opcodeOf w = ebpfOpJeqImm) :
    m.dispatch w = if m.regs.read (dstOf w) = (immediateOf w).setWidth 64
      then { m with ip := m.target w } else m.next := by
  have harm : jmpArm (opcodeOf w) (m.regs.read (dstOf w)) (m.regs.read (srcOf w)) (immediateOf w)
      = some (m.regs.read (dstOf w) == (immediateOf w).setWidth 64) := by
    rw [h]
    rfl
  rw [dispatch_jmp (by rw [h]; decide), jump, if_neg (by rw [h]; decide),
    if_neg (by rw [h]; decide), harm]
  by_cases heq : m.regs.read (dstOf w) = (immediateOf w).setWidth 64
  · rw [if_pos heq, beq_iff_eq.mpr heq]
  · rw [if_neg heq, beq_eq_false_iff_ne.mpr heq]

/-! ## The judgement -/

/-- The architecture runs from `m` to a state with `Q`, and no jump on the way strays. -/
abbrev Runs (pm : Program) (Q : Machine → Prop) (m : Machine) : Prop :=
  Leads (isaNext pm) (fun m => ¬ m.Strays pm) Q m

/-- The architecture gets from one state to another, and no jump on the way strays. -/
abbrev GetsTo (pm : Program) : Machine → Machine → Prop :=
  Advances (isaNext pm) fun m => ¬ m.Strays pm

/-- The architecture is about to carry out `w`. -/
structure Ready (pm : Program) (m : Machine) (w : BitVec 64) : Prop where
  running : m.halt = false
  upper : m.upper = none
  word : m.wordAt pm = w
  accepted : badRegisters w = false

namespace Ready

theorem next (h : Ready pm m w) : m.isaNext pm = m.dispatch w := by
  rw [isaNext, h.word]
  exact exec_of_accepted h.running ((rejects_eq_badRegisters h.upper w).trans h.accepted) h.upper

/-- Only a jump strays. -/
theorem not_strays (h : Ready pm m w) (hcls : opclassOf (opcodeOf w) ≠ opcJmp) :
    ¬ m.Strays pm := by
  intro hs
  have htaken := hs.taken
  rw [h.word, taken_false hcls] at htaken
  cases htaken

/-- An instruction that sets a register. -/
theorem set {d : BitVec 4} {v : BitVec 64} (h : Ready pm m w)
    (hcls : opclassOf (opcodeOf w) ≠ opcJmp) (hd : m.dispatch w = m.set d v)
    (hrest : Runs pm Q (m.set d v)) : Runs pm Q m :=
  Leads.step_to (h.not_strays hcls) (h.next.trans hd) hrest

theorem exit (h : Ready pm m w) (hop : opcodeOf w = ebpfOpExit)
    (hq : Q { m with halt := true }) : Runs pm Q m := by
  refine Leads.step_to ?_ (h.next.trans (dispatch_exit hop)) (Leads.here hq)
  intro hs
  have htaken := hs.taken
  rw [h.word, taken, hop] at htaken
  cases htaken

/-- A comparison with an immediate. The word behind it is in the fetch stage when the jump is
taken, so it has to name registers that exist. -/
theorem jeqImm (h : Ready pm m w) (hop : opcodeOf w = ebpfOpJeqImm)
    (hafter : badRegisters (m.wordAfter pm) = false)
    (htaken : m.regs.read (dstOf w) = (immediateOf w).setWidth 64 →
      Runs pm Q { m with ip := m.target w })
    (hfall : m.regs.read (dstOf w) ≠ (immediateOf w).setWidth 64 → Runs pm Q m.next) :
    Runs pm Q m := by
  have hok : ¬ m.Strays pm := fun hs => by
    have hbad := hs.bad
    rw [hafter] at hbad
    cases hbad
  have hnext := h.next.trans (dispatch_jeqImm hop)
  by_cases heq : m.regs.read (dstOf w) = (immediateOf w).setWidth 64
  · rw [if_pos heq] at hnext
    exact Leads.step_to hok hnext (htaken heq)
  · rw [if_neg heq] at hnext
    exact Leads.step_to hok hnext (hfall heq)

end Ready

end Machine

/-! ## The core does the same -/

namespace Sys

variable {e : BitVec 10} {n : Nat} {s₀ s : Sys} {inp : Nat → Inputs} {Q : Machine → Prop}

/-- **What is proved on the architecture holds of the core.** -/
theorem HeldReset.ends (h : HeldReset e n s₀ s) (hn : 3 ≤ n) (hrun : ∀ t, (inp t).Running)
    (hy : Inputs.Yielding inp)
    (hruns : Machine.Runs s₀.pgm.mem (fun m => m.halt = true ∧ Q m) (s.start inp).machine) :
    ∃ m, Q m ∧ Ends inp s m.error m.regs m.mem := by
  obtain ⟨k, ⟨hhalt, hq⟩, hok⟩ := hruns.exists_iterate
  rw [← h.pgm] at hhalt hq hok
  obtain ⟨hm, -⟩ := (h.clear hn inp).iterate hok
  refine ⟨_, hq, (ends_iff (h.released (by omega)) hrun hy _ _ _).mpr ⟨k, ?_⟩⟩
  rw [hm]
  exact ⟨hhalt, rfl, rfl, rfl⟩

end Sys

end VeBpf
