import VeBpf.Proof.Halting

/-!
# Runs as the core machine sees them

A run that gets the data memory often enough goes through every state of the core
machine. So what it executes, and how it ends, are properties of that machine
alone, and two runs are the same as soon as their core machines agree.
-/

namespace VeBpf

open Stutter

/-! ## The log of the core machine -/

namespace CoreMachine

/-- What the core machine executes in `k` steps. -/
def log (pm : Program) (c : CoreMachine) : Nat → List Execution
  | 0 => []
  | k + 1 => log pm c k ++ ((next pm)^[k] c).event pm

theorem logNext_iterate (pm : Program) (c : CoreMachine) (k : Nat) :
    (logNext pm)^[k] (c, []) = ((next pm)^[k] c, log pm c k) := by
  induction k with
  | zero => rfl
  | succ k ih =>
      rw [Function.iterate_succ_apply', ih, Function.iterate_succ_apply']
      rfl

/-- The log begins with what the first step executes. -/
theorem log_succ (pm : Program) (c : CoreMachine) (k : Nat) :
    log pm c (k + 1) = c.event pm ++ log pm (c.next pm) k := by
  induction k with
  | zero => simp [log]
  | succ k ih => rw [log, ih, log, Function.iterate_succ_apply, List.append_assoc]

/-- A word that is refused, or a halted machine, executes nothing and leaves a halted machine. -/
theorem log_of_halt {pm : Program} {c : CoreMachine}
    (h : c.machine.halt = true ∨ c.machine.rejects (c.word pm) = true) (k : Nat) :
    log pm c k = [] := by
  induction k generalizing c with
  | zero => rfl
  | succ k ih =>
      have hnext : (c.next pm).machine.halt = true := by
        show (c.machine.exec (c.word pm)).halt = true
        by_contra hrun
        obtain ⟨h1, h2⟩ := Machine.running_of_exec (Bool.not_eq_true _ ▸ hrun)
        rcases h with h | h
        · rw [h1] at h; cases h
        · rw [h2] at h; cases h
      rw [log_succ, ih (Or.inl hnext), List.append_nil]
      exact event_nil h

theorem log_add (pm : Program) (c : CoreMachine) (j k : Nat) :
    log pm c (j + k) = log pm c j ++ log pm ((next pm)^[j] c) k := by
  induction k with
  | zero => exact (List.append_nil _).symm
  | succ k ih =>
      rw [← Nat.add_assoc, log, log, ih, List.append_assoc, Nat.add_comm j k,
        Function.iterate_add_apply]

/-- The log of a halted machine is complete. -/
theorem log_complete {pm : Program} {c : CoreMachine} {j : Nat}
    (h : ((next pm)^[j] c).machine.halt = true) (k : Nat) : log pm c k <+: log pm c j := by
  rcases Nat.le_total k j with hle | hle
  · obtain ⟨d, rfl⟩ := Nat.exists_eq_add_of_le hle
    rw [log_add]
    exact List.prefix_append _ _
  · obtain ⟨d, rfl⟩ := Nat.exists_eq_add_of_le hle
    refine ⟨[], ?_⟩
    rw [List.append_nil, log_add, log_of_halt (Or.inl h), List.append_nil]

/-- Logs of machines that execute the same are the same. -/
theorem log_congr {pm₁ pm₂ : Program} {c₁ c₂ : CoreMachine}
    (h : ∀ k, ((next pm₁)^[k] c₁).event pm₁ = ((next pm₂)^[k] c₂).event pm₂) (k : Nat) :
    log pm₁ c₁ k = log pm₂ c₂ k := by
  induction k with
  | zero => rfl
  | succ k ih => rw [log, log, ih, h k]

end CoreMachine

/-! ## What a run executes and how it ends -/

namespace Sys

variable {inp : Nat → Inputs} {s : Sys}

/-- An instruction is written down one at a time. -/
theorem executed_succ (inp : Nat → Inputs) (s : Sys) (t : Nat) :
    executed inp s (t + 1) = executed inp s t
    ∨ ∃ e, executed inp s (t + 1) = executed inp s t ++ [e] := by
  show executed inp s t ++ (watch inp s t).executes (run inp s t) = _ ∨ _
  unfold Watch.executes
  split
  · exact Or.inr ⟨_, by rw [executed, Watch.executes, if_pos ‹_›]⟩
  · exact Or.inl (List.append_nil _)

/-- Every beginning of what has been executed was once all that had been. -/
theorem executes_of_prefix {l : List Execution} {t : Nat} (h : l <+: executed inp s t) :
    Executes inp s l := by
  induction t with
  | zero => exact ⟨0, (List.prefix_nil.mp h).symm⟩
  | succ t ih =>
      rcases executed_succ inp s t with heq | ⟨e, heq⟩
      · exact ih (heq ▸ h)
      · rw [heq, List.prefix_concat_iff] at h
        rcases h with rfl | h
        · exact ⟨t + 1, by rw [heq]⟩
        · exact ih h

/-- What a run executes is a beginning of the log of its core machine, whether it gets the data
memory or not. -/
theorem executes_log (hs : Released s) (hrun : ∀ t, (inp t).Running) {l : List Execution}
    (h : Executes inp s l) : ∃ k, l <+: CoreMachine.log s.pgm.mem (s.start inp) k := by
  obtain ⟨pos, his, los, htrack⟩ := (follows hs hrun).exists_track (Or.inl ⟨rfl, rfl, rfl, rfl⟩)
  obtain ⟨t, rfl⟩ := h
  rcases htrack.at_pos t with ⟨rfl, _⟩ | ⟨_, st, h⟩
  · exact ⟨0, List.nil_prefix⟩
  · rw [CoreMachine.logNext_iterate] at h
    rw [h.log]
    -- an instruction under way is in the log of the run one step early
    by_cases hb : st = .busy
    · rw [if_pos hb]
      exact ⟨pos t + 1, List.prefix_refl _⟩
    · rw [if_neg hb, List.append_nil]
      exact ⟨pos t, List.prefix_refl _⟩

/-- **What a run executes is a beginning of the log of its core machine.** -/
theorem executes_iff (hs : Released s) (hrun : ∀ t, (inp t).Running) (hy : Inputs.Yielding inp)
    (l : List Execution) :
    Executes inp s l ↔ ∃ k, l <+: CoreMachine.log s.pgm.mem (s.start inp) k := by
  refine ⟨executes_log hs hrun, ?_⟩
  have hf := follows hs hrun
  obtain ⟨pos, his, los, htrack⟩ := hf.exists_track (Or.inl ⟨rfl, rfl, rfl, rfl⟩)
  rintro ⟨k, hl⟩
  obtain ⟨t, ht⟩ := htrack.visits hf hy k
  rcases htrack.at_pos t with ⟨rfl, _⟩ | ⟨_, st, h⟩
  · rw [htrack.start] at ht
    subst ht
    exact ⟨0, (List.prefix_nil.mp hl).symm⟩
  · rw [CoreMachine.logNext_iterate, ht] at h
    exact executes_of_prefix (t := t) (hl.trans (h.log ▸ List.prefix_append _ _))

/-- A halted run shows its core machine, halted, and has executed all of its log. -/
theorem halted_machine (hs : Released s) (hrun : ∀ t, (inp t).Running) {t : Nat}
    (hh : (run inp s t).cpu.halt = true) :
    ∃ k, ((CoreMachine.next s.pgm.mem)^[k] (s.start inp)).machine.halt = true
      ∧ Stopped ((CoreMachine.next s.pgm.mem)^[k] (s.start inp)).machine (run inp s t)
      ∧ executed inp s t = CoreMachine.log s.pgm.mem (s.start inp) k := by
  obtain ⟨pos, his, los, htrack⟩ := (follows hs hrun).exists_track (Or.inl ⟨rfl, rfl, rfl, rfl⟩)
  rcases htrack.at_pos t with ⟨rfl, _⟩ | ⟨_, st, h⟩
  · exact absurd (hs.halt.symm.trans hh) (by simp)
  · rw [CoreMachine.logNext_iterate] at h
    obtain rfl := h.phase.halt_iff.mp hh
    have hstop := h.phase.stopped_inv
    have hlog := h.log
    rw [if_neg (by simp), List.append_nil] at hlog
    exact ⟨pos t, hstop.halted, hstop, hlog⟩

/-- **A run that halts has executed the whole log.** -/
theorem executes_of_halt (hs : Released s) (hrun : ∀ t, (inp t).Running) {t k : Nat}
    (hh : (run inp s t).cpu.halt = true) {l : List Execution}
    (hl : l <+: CoreMachine.log s.pgm.mem (s.start inp) k) : Executes inp s l := by
  obtain ⟨j, hhalt, -, hall⟩ := halted_machine hs hrun hh
  refine executes_of_prefix (t := t) (hl.trans ?_)
  rw [hall]
  exact CoreMachine.log_complete hhalt k

/-- A run that ends does so as its core machine does, whether it gets the data memory or not. -/
theorem ends_machine (hs : Released s) (hrun : ∀ t, (inp t).Running) {error : Bool} {regs : Regs}
    {mem : BitVec 11 → BitVec 8} (h : Ends inp s error regs mem) :
    ∃ k, ((CoreMachine.next s.pgm.mem)^[k] (s.start inp)).machine.halt = true
      ∧ ((CoreMachine.next s.pgm.mem)^[k] (s.start inp)).machine.error = error
      ∧ ((CoreMachine.next s.pgm.mem)^[k] (s.start inp)).machine.regs = regs
      ∧ ((CoreMachine.next s.pgm.mem)^[k] (s.start inp)).machine.mem = mem := by
  obtain ⟨t, hh, he, hr, hm⟩ := h
  obtain ⟨k, hhalt, hstop, -⟩ := halted_machine hs hrun hh
  exact ⟨k, hhalt, by rw [← he, hstop.error], by rw [← hr, hstop.regs],
    by rw [← hm, hstop.ram.holds]⟩

/-- **A run ends exactly as its core machine does.** -/
theorem ends_iff (hs : Released s) (hrun : ∀ t, (inp t).Running) (hy : Inputs.Yielding inp)
    (error : Bool) (regs : Regs) (mem : BitVec 11 → BitVec 8) :
    Ends inp s error regs mem ↔
      ∃ k, ((CoreMachine.next s.pgm.mem)^[k] (s.start inp)).machine.halt = true
        ∧ ((CoreMachine.next s.pgm.mem)^[k] (s.start inp)).machine.error = error
        ∧ ((CoreMachine.next s.pgm.mem)^[k] (s.start inp)).machine.regs = regs
        ∧ ((CoreMachine.next s.pgm.mem)^[k] (s.start inp)).machine.mem = mem := by
  refine ⟨ends_machine hs hrun, ?_⟩
  have hf := follows hs hrun
  obtain ⟨pos, his, los, htrack⟩ := hf.exists_track (Or.inl ⟨rfl, rfl, rfl, rfl⟩)
  rintro ⟨k, hh, he, hr, hm⟩
  obtain ⟨t, ht⟩ := htrack.visits hf hy k
  rcases htrack.at_pos t with ⟨rfl, _⟩ | ⟨_, st, h⟩
  · rw [htrack.start] at ht
    subst ht
    cases hh
  · rw [CoreMachine.logNext_iterate, ht] at h
    have hst : st = .stopped := by
      by_contra hst
      exact absurd ((h.phase.holds hst).running.symm.trans hh) (by simp)
    subst hst
    have hstop := h.phase.stopped_inv
    exact ⟨t, hstop.halt, by rw [hstop.error]; exact he, by rw [hstop.regs]; exact hr,
      by rw [hstop.ram.holds]; exact hm⟩

/-- What a halted run holds it still holds later. -/
theorem Reachable.frozen (hs : Reachable s) (hrun : ∀ t, (inp t).resetNInt = true) {t u : Nat}
    (htu : t ≤ u) (hh : (run inp s t).cpu.halt = true) : Frozen (run inp s t) (run inp s u) := by
  obtain ⟨d, rfl⟩ := Nat.exists_eq_add_of_le htu
  obtain ⟨m, hm⟩ := (hs.after inp t).stopped hh
  rw [run_add]
  exact (frozen_run hm (fun v => hrun (t + v)) d).2

/-- A run ends in one way only. -/
theorem Ends.unique {error error' : Bool} {regs regs' : Regs} {mem mem' : BitVec 11 → BitVec 8}
    (hs : Reachable s) (hrun : ∀ t, (inp t).resetNInt = true) (h : Ends inp s error regs mem)
    (h' : Ends inp s error' regs' mem') : error = error' ∧ regs = regs' ∧ mem = mem' := by
  obtain ⟨t, hh, rfl, rfl, rfl⟩ := h
  obtain ⟨t', hh', rfl, rfl, rfl⟩ := h'
  rcases Nat.le_total t t' with hle | hle
  · have hf := hs.frozen hrun hle hh
    exact ⟨hf.error.symm, hf.regs.symm, hf.data.symm⟩
  · have hf := hs.frozen hrun hle hh'
    exact ⟨hf.error, hf.regs, hf.data⟩

/-- **Runs whose core machines agree are the same.** -/
theorem sameRun_of_machines {inp₁ inp₂ : Nat → Inputs} {s₁ s₂ : Sys} (hs₁ : Released s₁)
    (hs₂ : Released s₂) (hrun₁ : ∀ t, (inp₁ t).Running) (hrun₂ : ∀ t, (inp₂ t).Running)
    (hy₁ : Inputs.Yielding inp₁) (hy₂ : Inputs.Yielding inp₂)
    (hmachine : ∀ k, ((CoreMachine.next s₁.pgm.mem)^[k] (s₁.start inp₁)).machine
      = ((CoreMachine.next s₂.pgm.mem)^[k] (s₂.start inp₂)).machine)
    (hevent : ∀ k, ((CoreMachine.next s₁.pgm.mem)^[k] (s₁.start inp₁)).event s₁.pgm.mem
      = ((CoreMachine.next s₂.pgm.mem)^[k] (s₂.start inp₂)).event s₂.pgm.mem) :
    SameRun inp₁ s₁ inp₂ s₂ where
  executes := by
    intro l
    rw [executes_iff hs₁ hrun₁ hy₁, executes_iff hs₂ hrun₂ hy₂]
    simp only [CoreMachine.log_congr hevent]
  ends := by
    intro error regs mem
    rw [ends_iff hs₁ hrun₁ hy₁, ends_iff hs₂ hrun₂ hy₂]
    simp only [hmachine]

/-! ## The end of a reset -/

variable {e : BitVec 10} {n : Nat} {s₀ : Sys} {i : Inputs}

/-- One reset edge with the program memory left alone. -/
theorem step_resets (h : i.Resets e) (s : Sys) :
    (s.step i).cpu.ipNext = e ∧ (s.step i).cpu.instruction = s.pgm.dataOut
    ∧ (s.step i).pgm.mem = s.pgm.mem
    ∧ (s.step i).pgm.dataOut = s.pgm.mem (s.cpu.ipNext.setWidth 9) := by
  have hcpu := cpu_reset (s := s) h.resetN
  refine ⟨?_, ?_, ?_, ?_⟩
  · rw [hcpu]; exact h.entry
  · rw [hcpu]; rfl
  · simp [Sys.step, Ram64V3.step, h.progReset, h.progWrite]
  · simp [Sys.step, Ram64V3.step, h.progReset]

/-- The words that a reset of `n` edges leaves in the fetch stage besides the word at the entry:
the one that was prefetched when the reset came and the one that followed it. -/
def leftover (s₀ : Sys) (n : Nat) : List (BitVec 64) :=
  if n = 1 then [s₀.pgm.dataOut, s₀.pgm.mem (s₀.cpu.ipNext.setWidth 9)]
  else if n = 2 then [s₀.pgm.mem (s₀.cpu.ipNext.setWidth 9)]
  else []

theorem HeldReset.released (h : HeldReset e n s₀ s) (hn : 1 ≤ n) : Released s := by
  obtain ⟨rst, hrst, rfl⟩ := h
  obtain ⟨k, rfl⟩ := Nat.exists_eq_add_of_le' hn
  exact released_of_reset (hrst k (by omega)).resetN

theorem HeldReset.reachable (h : HeldReset e n s₀ s) (hn : 1 ≤ n) : Reachable s := by
  obtain ⟨rst, hrst, rfl⟩ := h
  obtain ⟨k, rfl⟩ := Nat.exists_eq_add_of_le' hn
  exact Reachable.reset _ _ (hrst k (by omega)).resetN

theorem HeldReset.pgm (h : HeldReset e n s₀ s) : s.pgm.mem = s₀.pgm.mem := by
  obtain ⟨rst, hrst, rfl⟩ := h
  induction n with
  | zero => rfl
  | succ n ih =>
      rw [← ih fun t ht => hrst t (by omega)]
      exact (step_resets (hrst n (by omega)) _).2.2.1

theorem HeldReset.ipNext (h : HeldReset e n s₀ s) (hn : 1 ≤ n) : s.cpu.ipNext = e := by
  obtain ⟨rst, hrst, rfl⟩ := h
  obtain ⟨k, rfl⟩ := Nat.exists_eq_add_of_le' hn
  exact (step_resets (hrst k (by omega)) _).1

/-- A longer reset is one more edge after a shorter one. -/
theorem HeldReset.split (h : HeldReset e (n + 1) s₀ s) :
    ∃ s' i, HeldReset e n s₀ s' ∧ i.Resets e ∧ s = s'.step i := by
  obtain ⟨rst, hrst, rfl⟩ := h
  exact ⟨run rst s₀ n, rst n, ⟨rst, fun t ht => hrst t (by omega), rfl⟩, hrst n (by omega), rfl⟩

/-- **What the fetch stage holds at the end of a reset.** -/
theorem HeldReset.stale (h : HeldReset e n s₀ s) (hn : 1 ≤ n) (inp : Nat → Inputs) :
    (s.start inp).stale
      = s₀.leftover n ++ List.replicate (min (n - 1) 2) (s₀.pgm.mem (e.setWidth 9)) := by
  obtain ⟨k, rfl⟩ := Nat.exists_eq_add_of_le' hn
  obtain ⟨s₁, i₁, h₁, hi₁, rfl⟩ := h.split
  obtain ⟨-, hword, -, hout⟩ := step_resets hi₁ s₁
  have hstale : ((s₁.step i₁).start inp).stale
      = [s₁.pgm.dataOut, s₁.pgm.mem (s₁.cpu.ipNext.setWidth 9)] := by
    show [(s₁.step i₁).cpu.instruction, (s₁.step i₁).pgm.dataOut] = _
    rw [hword, hout]
  rw [hstale]
  rcases k with _ | k
  · obtain ⟨rst, -, rfl⟩ := h₁
    rfl
  · obtain ⟨s₂, i₂, h₂, hi₂, rfl⟩ := h₁.split
    obtain ⟨hip, -, hmem, hout₂⟩ := step_resets hi₂ s₂
    rw [hout₂, hmem, hip, h₂.pgm]
    rcases k with _ | k
    · obtain ⟨rst, -, rfl⟩ := h₂
      rfl
    · rw [h₂.ipNext (by omega), show min (k + 1 + 1 + 1 - 1) 2 = 2 by omega]
      simp [leftover, List.replicate]

theorem HeldReset.wordAt (h : HeldReset e n s₀ s) (hn : 1 ≤ n) (inp : Nat → Inputs) :
    (s.start inp).machine.wordAt s.pgm.mem = s₀.pgm.mem (e.setWidth 9) := by
  rw [h.pgm, ← h.ipNext hn]
  rfl

/-- **The word that the core acts on first**: the entry's, unless an earlier word in the fetch
stage is refused. -/
theorem HeldReset.word (h : HeldReset e n s₀ s) (hn : 1 ≤ n) (inp : Nat → Inputs) :
    (s.start inp).word s.pgm.mem
      = ((s₀.leftover n).find? (s.start inp).machine.rejects).getD
          (s₀.pgm.mem (e.setWidth 9)) := by
  unfold CoreMachine.word
  rw [h.wordAt hn inp, h.stale hn inp, List.find?_append]
  cases (s₀.leftover n).find? (s.start inp).machine.rejects with
  | some w => rfl
  | none =>
      -- copies of the entry's word make no difference
      rw [Option.none_or, Option.getD_none]
      cases hf : (List.replicate (min (n - 1) 2) (s₀.pgm.mem (e.setWidth 9))).find?
          (s.start inp).machine.rejects with
      | none => rfl
      | some w => exact List.eq_of_mem_replicate (List.mem_of_find?_eq_some hf)

theorem heldReset_selecting (e : BitVec 10) (n : Nat) (s : Sys) :
    HeldReset e n s (run (fun _ => Inputs.selecting e) s n) :=
  ⟨fun _ => Inputs.selecting e, fun _ _ => Inputs.selecting_resets e, rfl⟩

/-- A reset edge at which the host keeps away from the data memory leaves its bytes alone and the
memory at rest. -/
theorem idle_of_step_reset (s : Sys) (hr : i.resetNInt = false) (hc : i.csrCtl1 = false) :
    (s.step i).dataMem.Idle s.dataMem.mem := by
  have hram : (s.step i).dataMem = s.dataMemStep i := rfl
  rw [hram, dataMemStep, hr, hc]
  exact RamModule.idle_of_reset _ _ _ _ _ _

/-- So do all edges of such a reset. -/
theorem idle_of_resets {rst : Nat → Inputs} (s : Sys) (hn : 1 ≤ n)
    (hr : ∀ t, t < n → (rst t).resetNInt = false ∧ (rst t).csrCtl1 = false) :
    (run rst s n).dataMem.Idle s.dataMem.mem := by
  have hstep : ∀ t, t < n → ∀ x : Sys, (x.step (rst t)).dataMem.Idle x.dataMem.mem :=
    fun t ht x => idle_of_step_reset x (hr t ht).1 (hr t ht).2
  have hmem : ∀ t, t ≤ n → (run rst s t).dataMem.mem = s.dataMem.mem := by
    intro t ht
    induction t with
    | zero => rfl
    | succ t ih => rw [run, (hstep t (by omega) _).holds, ih (by omega)]
  obtain ⟨k, rfl⟩ := Nat.exists_eq_add_of_le' hn
  rw [← hmem k (by omega)]
  exact hstep k (by omega) _

/-- A data memory at rest is the same after the first edge of a run. -/
theorem first_data {mem : BitVec 11 → BitVec 8} (hs : Released s)
    (hr : i.resetNInt = true) (hm : s.dataMem.Idle mem) : (s.step i).dataMem.mem = mem := by
  rw [(hs.ram_step hr).holds, hm.holds, hm.landed, ite_self]

/-- Two designs that start alike at one entry start the same machine. -/
theorem StartsAlike.machine {inp₁ inp₂ : Nat → Inputs} {s₁ s₂ : Sys}
    (h : StartsAlike inp₁ s₁ inp₂ s₂) (hs₁ : Released s₁) (hs₂ : Released s₂)
    (hip : s₁.cpu.ipNext = s₂.cpu.ipNext) :
    (s₁.start inp₁).machine = (s₂.start inp₂).machine := by
  have hstore : s₁.callHandler.store = s₂.callHandler.store := by
    unfold CallHandler.store
    rw [hs₁.writeEnable, hs₂.writeEnable, hs₁.pause, hs₂.pause, hs₁.ret, hs₂.ret, h.store]
  show s₁.entry _ = s₂.entry _
  unfold entry
  rw [hip, h.args, h.data, hstore]

end Sys

end VeBpf
