import VeBpf.Proof.Runs

/-!
# Switching rules with a short reset

A reset points the fetch at the rule's entry, but the program memory is one edge
behind and the instruction register two. A reset of one or two edges therefore
leaves words of the old program in the fetch stage. They are not executed, but
their register numbers are checked; this alone decides whether the rule runs as
it does after a long reset.
-/

namespace VeBpf

namespace Sys

variable {e : BitVec 10} {n n' : Nat} {s₀ s₀' s s' : Sys} {inp inp' : Nat → Inputs}

/-- A refused word among those left over stops the rule before its first instruction. -/
theorem HeldReset.executes_nothing (h : HeldReset e n s₀ s) (hn : 1 ≤ n)
    (hrun : ∀ t, (inp t).Running) (hy : Inputs.Yielding inp)
    (hbad : ∃ w ∈ s₀.leftover n, badRegisters w = true) {l : List Execution}
    (hl : Executes inp s l) : l = [] := by
  obtain ⟨w, hw, hbad⟩ := hbad
  have hrej : (s.start inp).machine.rejects ((s.start inp).word s.pgm.mem) = true := by
    rw [h.word hn inp]
    cases hf : (s₀.leftover n).find? (s.start inp).machine.rejects with
    | some v => exact List.find?_some hf
    | none =>
        have hacc := List.find?_eq_none.mp hf w hw
        rw [Machine.rejects_eq_badRegisters rfl, hbad] at hacc
        exact absurd rfl hacc
  obtain ⟨k, hk⟩ := (executes_iff (h.released hn) hrun hy l).mp hl
  rw [CoreMachine.log_of_halt (Or.inr hrej)] at hk
  exact List.prefix_nil.mp hk

/-- Two rules that start alike, the one after a reset of any length and the other after a long one,
start on the same machine and the same program, the second with the word at the entry. -/
theorem HeldReset.start_alike (h : HeldReset e n s₀ s) (hn : 1 ≤ n) (h' : HeldReset e n' s₀' s')
    (hn' : 3 ≤ n') (hpgm : s₀'.pgm.mem = s₀.pgm.mem) (halike : StartsAlike inp s inp' s') :
    (s.start inp).machine = (s'.start inp').machine ∧ s'.pgm.mem = s.pgm.mem
    ∧ (s'.start inp').word s'.pgm.mem = s₀.pgm.mem (e.setWidth 9) := by
  refine ⟨halike.machine (h.released hn) (h'.released (by omega))
    ((h.ipNext hn).trans (h'.ipNext (by omega)).symm), by rw [h'.pgm, h.pgm, hpgm], ?_⟩
  rw [h'.word (by omega) inp', hpgm]
  simp [leftover, show n' ≠ 1 by omega, show n' ≠ 2 by omega]

/-- If nothing that is left over is refused, or the first word is, the rule acts on its first word,
or refuses another one where it would refuse that. -/
theorem HeldReset.word_alike (h : HeldReset e n s₀ s) (hn : 1 ≤ n)
    (hcond : (∀ w ∈ s₀.leftover n, badRegisters w = false)
      ∨ badRegisters (s₀.pgm.mem (e.setWidth 9)) = true) :
    (s.start inp).word s.pgm.mem = s₀.pgm.mem (e.setWidth 9)
    ∨ (badRegisters ((s.start inp).word s.pgm.mem) = true
      ∧ badRegisters (s₀.pgm.mem (e.setWidth 9)) = true) := by
  have hrej : (s.start inp).machine.rejects = badRegisters :=
    funext (Machine.rejects_eq_badRegisters rfl)
  rw [h.word hn inp, hrej]
  cases hf : (s₀.leftover n).find? badRegisters with
  | none => exact Or.inl rfl
  | some w =>
      have hw := List.find?_some hf
      rcases hcond with hleft | hbad
      · rw [hleft w (List.mem_of_find?_eq_some hf)] at hw
        cases hw
      · exact Or.inr ⟨hw, hbad⟩

/-- **Short and long resets.** However a design got where it is, a rule that starts after a reset
of `n` edges runs as it does after a long one exactly if no word left over from the old program
names a register that does not exist, or the first word of the rule does so itself. -/
theorem switching (h : HeldReset e n s₀ s) (hn : 1 ≤ n) (h' : HeldReset e n' s₀' s')
    (hn' : 3 ≤ n') (hpgm : s₀'.pgm.mem = s₀.pgm.mem) (halike : StartsAlike inp s inp' s')
    (hrun : ∀ t, (inp t).Running) (hrun' : ∀ t, (inp' t).Running)
    (hy : Inputs.Yielding inp) (hy' : Inputs.Yielding inp') :
    SameRun inp s inp' s' ↔
      (∀ w ∈ s₀.leftover n, badRegisters w = false)
      ∨ badRegisters (s₀.pgm.mem (e.setWidth 9)) = true := by
  have hrel := h.released hn
  have hrel' := h'.released (by omega)
  obtain ⟨hm, hpm, hword'⟩ := h.start_alike hn h' hn' hpgm halike
  have hrej : (s.start inp).machine.rejects = badRegisters :=
    funext (Machine.rejects_eq_badRegisters rfl)
  constructor
  · intro hsame
    by_contra hcond
    obtain ⟨hleft, hgood⟩ := not_or.mp hcond
    have hbad : ∃ w ∈ s₀.leftover n, badRegisters w = true := by
      by_contra hno
      refine hleft ?_
      intro w hw
      by_contra hb
      exact hno ⟨w, hw, by simpa using hb⟩
    -- after the long reset the rule gets as far as its first instruction
    have hfirst : Executes inp' s' ((s'.start inp').event s'.pgm.mem) :=
      (executes_iff hrel' hrun' hy' _).mpr ⟨1, by simp [CoreMachine.log]⟩
    have hnil := h.executes_nothing hn hrun hy hbad ((hsame.executes _).mpr hfirst)
    rw [CoreMachine.event, hword', Machine.eventOf, ← hm, hrej] at hnil
    rw [Bool.not_eq_true] at hgood
    simp [hgood, start, entry] at hnil
  · intro hcond
    -- the two core machines act on the same word, or both refuse theirs
    have hexec : (s.start inp).next s.pgm.mem = (s'.start inp').next s'.pgm.mem
        ∧ (s.start inp).event s.pgm.mem = (s'.start inp').event s'.pgm.mem := by
      unfold CoreMachine.next CoreMachine.event
      rw [hword', ← hm, hpm]
      rcases h.word_alike hn hcond with heq | ⟨hb, hb'⟩
      · rw [heq]
        exact ⟨rfl, rfl⟩
      · rw [← hrej] at hb hb'
        rw [Machine.exec_of_rejects rfl hb, Machine.exec_of_rejects rfl hb',
          event_nil (Or.inr hb), event_nil (Or.inr hb')]
        exact ⟨rfl, rfl⟩
    refine sameRun_of_machines hrel hrel' hrun hrun' hy hy' ?_ ?_
    · intro k
      rcases k with _ | k
      · exact hm
      · rw [Function.iterate_succ_apply, Function.iterate_succ_apply, hexec.1, hpm]
    · intro k
      rcases k with _ | k
      · exact hexec.2
      · rw [Function.iterate_succ_apply, Function.iterate_succ_apply, hexec.1, hpm]

/-! ## A word that is left over -/

/-- Every word is an `EXIT` but the second, which names registers that do not exist. -/
def exitsAndGarbage : Program := fun a =>
  if a = 1 then BitVec.allOnes 64 else 0x9500000000000000#64

/-- The first `EXIT` has halted the core, with the second word prefetched. -/
def atExit : Sys :=
  run (fun _ => Inputs.still true)
    ((zero exitsAndGarbage fun _ => 0).step (Inputs.still false)) 5

theorem atExit_reachable : Reachable atExit :=
  Reachable.after (Reachable.reset _ _ (Inputs.still_resetNInt false)) _ 5

/-- Resets of any lengths of one halted design start alike. -/
theorem startsAlike_selecting (e : BitVec 10) {n n' : Nat} (hn : 1 ≤ n) (hn' : 1 ≤ n') (s : Sys) :
    StartsAlike (fun _ => Inputs.still true) (run (fun _ => Inputs.selecting e) s n)
      (fun _ => Inputs.still true) (run (fun _ => Inputs.selecting e) s n') := by
  have hfirst : ∀ k, 1 ≤ k → ((run (fun _ => Inputs.selecting e) s k).step
      (Inputs.still true)).dataMem.mem = s.dataMem.mem := fun k hk =>
    first_data ((heldReset_selecting e k s).released hk) (Inputs.still_resetNInt true)
      (idle_of_resets s hk fun _ _ =>
        ⟨Inputs.selecting_resetNInt e, Inputs.selecting_csrCtl1 e⟩)
  have hstore : ∀ k, (run (fun _ => Inputs.selecting e) s k).callHandler.callHandlerMem
      = s.callHandler.callHandlerMem := by
    intro k
    induction k with
    | zero => rfl
    | succ k ih =>
        rw [← ih]
        simp [run, Sys.step, CallHandler.step, Ram64V1.step]
  have hregs : ∀ k, 1 ≤ k → (run (fun _ => Inputs.selecting e) s k).cpu.regs
      = #v[0, 0, 0, 0, 0, 0, 0, 0, 0, 0, 0] := by
    intro k hk
    obtain ⟨k, rfl⟩ := Nat.exists_eq_add_of_le' hk
    simp only [run, Sys.step, Cpu.step, Cpu.reset, Inputs.selecting_resetNInt, Bool.not_false,
      if_true]
    rfl
  exact ⟨by rw [hregs _ hn, hregs _ hn'], by rw [hfirst _ hn, hfirst _ hn'],
    by rw [hstore, hstore]⟩

/-- One reset edge does not do what three do. -/
theorem switching_leftover :
    Reachable atExit
    ∧ HeldReset 2 1 atExit (run (fun _ => Inputs.selecting 2) atExit 1)
    ∧ HeldReset 2 3 atExit (run (fun _ => Inputs.selecting 2) atExit 3)
    ∧ StartsAlike (fun _ => Inputs.still true) (run (fun _ => Inputs.selecting 2) atExit 1)
        (fun _ => Inputs.still true) (run (fun _ => Inputs.selecting 2) atExit 3)
    ∧ ¬ SameRun (fun _ => Inputs.still true) (run (fun _ => Inputs.selecting 2) atExit 1)
        (fun _ => Inputs.still true) (run (fun _ => Inputs.selecting 2) atExit 3) := by
  refine ⟨atExit_reachable, heldReset_selecting 2 1 _, heldReset_selecting 2 3 _,
    startsAlike_selecting 2 (by omega) (by omega) _, ?_⟩
  intro hsame
  have hlong : (executed (fun _ => Inputs.still true)
      (run (fun _ => Inputs.selecting 2) atExit 3) 3).length = 1 := by rfl
  have hnil := (heldReset_selecting 2 1 atExit).executes_nothing (by omega)
    (fun _ => Inputs.still_running) Inputs.still_yielding ⟨_, List.mem_cons_self, by decide⟩
    ((hsame.executes _).mpr ⟨3, rfl⟩)
  rw [hnil] at hlong
  cases hlong

/-- An `EXIT` at 0, and at 2 a rule that loads a byte and jumps on it. -/
def exitAndRule : Program := fun a =>
  if a = 2 then 0x7110000000000000#64
  else if a = 3 then 0x1500000100000000#64
  else 0x9500000000000000#64

theorem exitAndRule_registers (a : BitVec 9) : badRegisters (exitAndRule a) = false := by
  unfold exitAndRule
  split_ifs <;> decide

/-- The `EXIT` has halted the core. -/
def beforeRule : Sys :=
  run (fun _ => Inputs.still true)
    ((zero exitAndRule fun _ => 0).step (Inputs.still false)) 5

theorem beforeRule_leftover {w : BitVec 64} (hw : w ∈ beforeRule.leftover 1) :
    badRegisters w = false := by
  rw [leftover, if_pos rfl, List.mem_cons, List.mem_singleton] at hw
  rcases hw with rfl | rfl
  · decide +kernel
  · rw [show beforeRule.pgm.mem = exitAndRule from rfl]
    exact exitAndRule_registers _

/-- One reset edge starts the rule at 2 as three do: it executes its load, its jump and the `EXIT`
that it jumps to. -/
theorem switching_beforeRule :
    SameRun (fun _ => Inputs.still true) (run (fun _ => Inputs.selecting 2) beforeRule 1)
      (fun _ => Inputs.still true) (run (fun _ => Inputs.selecting 2) beforeRule 3)
    ∧ ∃ l, Executes (fun _ => Inputs.still true)
        (run (fun _ => Inputs.selecting 2) beforeRule 1) l ∧ l.map Execution.ip = [2, 3, 5] := by
  constructor
  · exact (switching (heldReset_selecting 2 1 beforeRule) (by omega)
      (heldReset_selecting 2 3 beforeRule) (by omega) rfl
      (startsAlike_selecting 2 (by omega) (by omega) _) (fun _ => Inputs.still_running)
      (fun _ => Inputs.still_running) Inputs.still_yielding Inputs.still_yielding).mpr
      (Or.inl fun _ hw => beforeRule_leftover hw)
  · refine ⟨_, (executes_iff ((heldReset_selecting 2 1 beforeRule).released (by omega))
      (fun _ => Inputs.still_running) Inputs.still_yielding _).mpr ⟨3, List.prefix_refl _⟩, ?_⟩
    decide +kernel

end Sys

end VeBpf
