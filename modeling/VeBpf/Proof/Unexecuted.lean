import VeBpf.Proof.Switching

/-!
# Words that are never executed

The architecture reads a word only when the instruction pointer is on it. The core
looks at one more: the word behind a taken jump is in the fetch stage while the
target is being fetched, and its register numbers are checked there. Away from
such words the core is the architecture, and what is stored at an address that is
never executed does not matter.
-/

namespace VeBpf

open Stutter

/-! ## The core against the architecture -/

namespace Machine

variable {m : Machine} {w : BitVec 64} {pm : Program}

theorem dispatch_of_taken (h : m.taken w = true) : m.dispatch w = { m with ip := m.target w } := by
  have hcls : opclassOf (opcodeOf w) = opcJmp := by
    by_contra hne
    rw [taken_false hne] at h
    cases h
  have hcall : opcodeOf w ≠ ebpfOpCall := by
    intro hop
    rw [taken, hop] at h
    cases h
  have hexit : opcodeOf w ≠ ebpfOpExit := by
    intro hop
    rw [taken, hop] at h
    cases h
  rw [dispatch_jmp hcls, jump, if_neg hcall, if_neg hexit]
  rw [taken, beq_iff_eq] at h
  rw [h]

/-- The word at the instruction pointer is a jump that is taken, and the word behind it names a
register that does not exist and is not the word jumped to. -/
structure Strays (pm : Program) (m : Machine) : Prop where
  running : m.halt = false
  upper : m.upper = none
  accepted : badRegisters (m.wordAt pm) = false
  taken : m.taken (m.wordAt pm) = true
  bad : badRegisters (m.wordAfter pm) = true
  other : m.wordAfter pm ≠ pm ((m.target (m.wordAt pm)).setWidth 9)

theorem isaNext_of_taken (hrun : m.halt = false) (hu : m.upper = none)
    (hacc : badRegisters (m.wordAt pm) = false) (ht : m.taken (m.wordAt pm) = true) :
    m.isaNext pm = { m with ip := m.target (m.wordAt pm) } := by
  have hacc' : m.rejects (m.wordAt pm) = false := by
    rw [rejects_eq_badRegisters hu, hacc]
  rw [isaNext, exec_of_accepted hrun hacc' hu, dispatch_of_taken ht]

end Machine

namespace CoreMachine

variable {c : CoreMachine} {pm : Program}

/-- No stale word is taken for the word at the instruction pointer. -/
def Clear (pm : Program) (c : CoreMachine) : Prop :=
  c.machine.halt = false → ∀ w ∈ c.stale, c.machine.rejects w = true → w = c.machine.wordAt pm

theorem Clear.word (h : c.Clear pm) (hrun : c.machine.halt = false) :
    c.word pm = c.machine.wordAt pm := by
  unfold CoreMachine.word
  cases hf : c.stale.find? c.machine.rejects with
  | none => rfl
  | some w => exact h hrun w (List.mem_of_find?_eq_some hf) (List.find?_some hf)

theorem Clear.machine_next (h : c.Clear pm) : (c.next pm).machine = c.machine.isaNext pm := by
  show c.machine.exec (c.word pm) = c.machine.exec (c.machine.wordAt pm)
  cases hh : c.machine.halt with
  | true => rw [Machine.exec_of_halt hh, Machine.exec_of_halt hh]
  | false => rw [h.word hh]

/-- **Only a taken jump leaves a stale word behind.** -/
theorem Clear.keeps (h : c.Clear pm) (hns : ¬ c.machine.Strays pm) : (c.next pm).Clear pm := by
  intro hrun w hw hrej
  obtain rfl : w = c.machine.wordAfter pm := List.mem_singleton.mp hw
  rw [h.machine_next] at hrun hrej ⊢
  obtain ⟨hlive, hacc⟩ := Machine.running_of_exec hrun
  cases hu : c.machine.upper with
  | some d =>
      have hip := Machine.exec_ip_upper hrun hu
      exact congrArg (fun a : BitVec 10 => pm (a.setWidth 9)) hip.symm
  | none =>
      have hip := Machine.exec_ip hrun hu
      cases ht : c.machine.taken (c.machine.wordAt pm) with
      | false =>
          rw [ht, if_neg Bool.false_ne_true] at hip
          exact congrArg (fun a : BitVec 10 => pm (a.setWidth 9)) hip.symm
      | true =>
          rw [ht, if_pos rfl] at hip
          rw [Machine.rejects_eq_badRegisters hu] at hacc
          by_contra hne
          refine hns ⟨hlive, hu, hacc, ht, ?_, fun heq => hne ?_⟩
          · rw [Machine.isaNext_of_taken hlive hu hacc ht, Machine.rejects_eq_badRegisters] at hrej
            · exact hrej
            · exact hu
          · rw [heq, ← hip]
            rfl

/-- **A jump that strays** makes the core refuse a word that is not the one it jumps to. -/
theorem Clear.strays (h : c.Clear pm) (hs : c.machine.Strays pm) :
    (c.next pm).machine.halt = false
    ∧ (c.next pm).machine.rejects ((c.next pm).word pm) = true
    ∧ (c.next pm).word pm ≠ (c.next pm).machine.wordAt pm := by
  have hnext : (c.next pm).machine
      = { c.machine with ip := c.machine.target (c.machine.wordAt pm) } := by
    rw [h.machine_next]
    exact Machine.isaNext_of_taken hs.running hs.upper hs.accepted hs.taken
  have hup : (c.next pm).machine.upper = none := by rw [hnext]; exact hs.upper
  have hrejects : (c.next pm).machine.rejects (c.machine.wordAfter pm) = true := by
    rw [Machine.rejects_eq_badRegisters hup, hs.bad]
  have hword : (c.next pm).word pm = c.machine.wordAfter pm := by
    unfold CoreMachine.word
    rw [show (c.next pm).stale = [c.machine.wordAfter pm] from rfl, List.find?_cons, hrejects]
    rfl
  refine ⟨by rw [hnext]; exact hs.running, by rw [hword]; exact hrejects, ?_⟩
  rw [hword, hnext]
  exact hs.other

/-- **As long as no jump strays, the core machine is the architecture.** -/
theorem Clear.iterate (h : c.Clear pm) {k : Nat}
    (hns : ∀ j, j < k → ¬ ((Machine.isaNext pm)^[j] c.machine).Strays pm) :
    ((next pm)^[k] c).machine = (Machine.isaNext pm)^[k] c.machine
      ∧ ((next pm)^[k] c).Clear pm := by
  induction k with
  | zero => exact ⟨rfl, h⟩
  | succ k ih =>
      obtain ⟨hm, hc⟩ := ih fun j hj => hns j (by omega)
      rw [Function.iterate_succ_apply', Function.iterate_succ_apply', hc.machine_next, hm]
      exact ⟨rfl, hc.keeps (hm ▸ hns k (by omega))⟩

end CoreMachine

/-! ## Runs -/

namespace Sys

variable {e : BitVec 10} {n : Nat} {s₀ s : Sys} {inp : Nat → Inputs}

/-- The architectural run of the program that a design starts on. -/
def arch (inp : Nat → Inputs) (s : Sys) (k : Nat) : Machine :=
  (Machine.isaNext s.pgm.mem)^[k] (s.start inp).machine

/-- While the core fetches, it halts on no other word than the one it is fetching. -/
def Undisturbed (inp : Nat → Inputs) (s : Sys) : Prop :=
  ∀ t, (run inp s t).cpu.halt = false → (run inp s (t + 1)).cpu.halt = true →
    ((run inp s t).cpu.stateNext = .opFetch →
      (run inp s t).cpu.instruction = s.pgm.mem ((run inp s t).cpu.ipNext.setWidth 9))
    ∧ ((run inp s t).cpu.stateNext = .opFetchDelay →
      (run inp s t).cpu.instruction = s.pgm.mem ((run inp s t).cpu.ip.setWidth 9))

/-- After three reset edges the fetch stage holds the word at the entry twice. -/
theorem HeldReset.stale_long (h : HeldReset e n s₀ s) (hn : 3 ≤ n) (inp : Nat → Inputs) :
    (s.start inp).stale
      = [(s.start inp).machine.wordAt s.pgm.mem, (s.start inp).machine.wordAt s.pgm.mem] := by
  rw [h.wordAt (by omega) inp, h.stale (by omega) inp, show min (n - 1) 2 = 2 by omega]
  simp [leftover, show n ≠ 1 by omega, show n ≠ 2 by omega, List.replicate]

theorem HeldReset.clear (h : HeldReset e n s₀ s) (hn : 3 ≤ n) (inp : Nat → Inputs) :
    (s.start inp).Clear s.pgm.mem := by
  intro _ w hw _
  rw [h.stale_long hn inp] at hw
  simpa using hw

/-- If no jump strays, the fetch stage halts on nothing but the word it is fetching. -/
theorem undisturbed_of_no_stray (h : HeldReset e n s₀ s) (hn : 3 ≤ n)
    (hrun : ∀ t, (inp t).Running) (hns : ∀ k, ¬ (s.arch inp k).Strays s.pgm.mem) :
    Undisturbed inp s := by
  have hrel := h.released (by omega)
  obtain ⟨pos, his, los, htrack⟩ := (follows hrel hrun).exists_track (Or.inl ⟨rfl, rfl, rfl, rfl⟩)
  intro t hlive hhalt
  rcases htrack.at_pos t with ⟨rfl, _⟩ | ⟨_, st, hl⟩
  · refine ⟨fun _ => ?_, ?_⟩
    · exact (List.cons.inj (h.stale_long hn inp)).1
    · intro hd
      rw [show (run inp s 0).cpu.stateNext = _ from hrel.state] at hd
      cases hd
  · rw [CoreMachine.logNext_iterate] at hl
    have hst : st ≠ .stopped := by
      rintro rfl
      rw [hl.phase.halt_iff.mpr rfl] at hlive
      cases hlive
    have hclear := ((h.clear hn inp).iterate (k := pos t) fun j _ => hns j).2
    have hword := hclear.word (hl.phase.holds hst).running
    -- a core that halts while it fetches has refused the word in `instruction`
    have hrefused : st = .fetch ∨ st = .delay → (run inp s t).cpu.instruction
        = ((CoreMachine.next s.pgm.mem)^[pos t] (s.start inp)).machine.wordAt s.pgm.mem := by
      intro hfd
      have hrej := rejects_of_halt hl.phase (hrun t) hfd hhalt
      rw [← hword, hl.fetching.word (Or.inr ⟨hst, hrej⟩)]
    have hip := hl.phase.ipNext
    refine ⟨fun hf => ?_, fun hd => ?_⟩
    · obtain rfl := (hl.phase.fetch_iff hst).mp hf
      rw [hrefused (Or.inl rfl), hip]
      rfl
    · obtain rfl := (hl.phase.delay_iff hst).mp hd
      rw [hrefused (Or.inr rfl), hip.ip]
      rfl

/-- A running core that halts without being disturbed does so on the word that the architecture
reads. -/
theorem Undisturbed.word {c : CoreMachine} {l : List Execution} {k : Watch} {st : Stage}
    {log : List Execution} {hi lo t : Nat} (hu : Undisturbed inp s) (hrun : (inp t).Running)
    (hl : Linked s.pgm.mem (run inp s t) k log (c, l) st hi lo) (hst : st ≠ .stopped)
    (hhalt : (run inp s (t + 1)).cpu.halt = true) :
    c.word s.pgm.mem = c.machine.wordAt s.pgm.mem := by
  obtain ⟨hfetch, hdelay⟩ := hu t (hl.phase.holds hst).halt hhalt
  have hstate := hl.phase.stateNext
  have hip := hl.phase.ipNext
  cases st with
  | stopped => exact absurd rfl hst
  | fetch =>
      have hrej := rejects_of_halt hl.phase hrun (Or.inl rfl) hhalt
      rw [hl.fetching.word (Or.inr ⟨hst, hrej⟩), hfetch hstate, hip]
      rfl
  | delay =>
      have hrej := rejects_of_halt hl.phase hrun (Or.inr rfl) hhalt
      rw [hl.fetching.word (Or.inr ⟨hst, hrej⟩), hdelay hstate, hip.ip]
      rfl
  | decode => exact hl.fetching.1.trans hl.fetching.2.1
  | busy => exact hl.fetching.1.trans hl.fetching.2.1

/-- The first jump that strays halts the core on the word behind it. -/
theorem no_stray_of_undisturbed (h : HeldReset e n s₀ s) (hn : 3 ≤ n)
    (hrun : ∀ t, (inp t).Running) (hy : Inputs.Yielding inp) (hu : Undisturbed inp s) :
    ∀ k, ¬ (s.arch inp k).Strays s.pgm.mem := by
  intro k
  induction k using Nat.strong_induction_on with
  | h k ih =>
      intro hstray
      have hrel := h.released (by omega)
      obtain ⟨hm, hclear⟩ := (h.clear hn inp).iterate ih
      obtain ⟨hrunning, hrejects, hwrong⟩ := hclear.strays (by rw [hm]; exact hstray)
      rw [← Function.iterate_succ_apply' (CoreMachine.next s.pgm.mem)] at hrunning hrejects hwrong
      -- the edge at which the core takes this step
      have hf := follows hrel hrun
      obtain ⟨pos, his, los, htrack⟩ := hf.exists_track (Or.inl ⟨rfl, rfl, rfl, rfl⟩)
      obtain ⟨t, ht, ht'⟩ := htrack.passes hf hy (k + 1)
      rcases htrack.at_pos t with ⟨rfl, _⟩ | ⟨_, st, hl⟩
      · rw [htrack.start] at ht
        omega
      rcases htrack.at_pos (t + 1) with ⟨h0, _⟩ | ⟨_, st', hl'⟩
      · omega
      rw [CoreMachine.logNext_iterate, ht] at hl
      rw [CoreMachine.logNext_iterate, ht',
        Function.iterate_succ_apply' (CoreMachine.next s.pgm.mem) (k + 1)] at hl'
      have hst : st ≠ .stopped := by
        rintro rfl
        rw [hl.phase.stopped_inv.halted] at hrunning
        cases hrunning
      have hhalt : (run inp s (t + 1)).cpu.halt = true := by
        refine hl'.phase.halt_iff.mpr ?_
        by_contra hst'
        have hlive := (hl'.phase.holds hst').running
        change (Machine.exec _ (CoreMachine.word s.pgm.mem _)).halt = false at hlive
        rw [Machine.exec_of_rejects hrunning hrejects] at hlive
        cases hlive
      exact hwrong (hu.word (hrun t) hl hst hhalt)

/-- Programs that agree on what the architecture reads have the same architectural run. -/
theorem arch_congr {inp₁ inp₂ : Nat → Inputs} {s₁ s₂ : Sys}
    (hm : (s₁.start inp₁).machine = (s₂.start inp₂).machine)
    (hagree : ∀ k, (s₁.arch inp₁ k).halt = false →
      s₁.pgm.mem ((s₁.arch inp₁ k).ip.setWidth 9) = s₂.pgm.mem ((s₁.arch inp₁ k).ip.setWidth 9))
    (k : Nat) : s₁.arch inp₁ k = s₂.arch inp₂ k := by
  induction k with
  | zero => exact hm
  | succ k ih =>
      have hstep : ∀ (inp : Nat → Inputs) (s : Sys),
          s.arch inp (k + 1) = (s.arch inp k).isaNext s.pgm.mem := fun inp s =>
        Function.iterate_succ_apply' _ _ _
      rw [hstep, hstep, ← ih, Machine.isaNext, Machine.isaNext]
      cases hh : (s₁.arch inp₁ k).halt with
      | true => rw [Machine.exec_of_halt hh, Machine.exec_of_halt hh]
      | false => exact congrArg _ (hagree k hh)

/-- **Words that are never executed.** Two programs that agree at every address that the
architecture reads run alike, and neither is halted by a word it only fetched, exactly if no jump
of the run has a word behind it that names a register that does not exist and is not the word
jumped to. -/
theorem unexecuted_words {n₁ n₂ : Nat} {s₀₁ s₁ s₀₂ s₂ : Sys} {inp₁ inp₂ : Nat → Inputs}
    (h₁ : HeldReset e n₁ s₀₁ s₁) (hn₁ : 3 ≤ n₁) (h₂ : HeldReset e n₂ s₀₂ s₂) (hn₂ : 3 ≤ n₂)
    (halike : StartsAlike inp₁ s₁ inp₂ s₂)
    (hrun₁ : ∀ t, (inp₁ t).Running) (hrun₂ : ∀ t, (inp₂ t).Running)
    (hy₁ : Inputs.Yielding inp₁) (hy₂ : Inputs.Yielding inp₂)
    (hagree : ∀ k, (s₁.arch inp₁ k).halt = false →
      s₁.pgm.mem ((s₁.arch inp₁ k).ip.setWidth 9) = s₂.pgm.mem ((s₁.arch inp₁ k).ip.setWidth 9)) :
    (SameRun inp₁ s₁ inp₂ s₂ ∧ Undisturbed inp₁ s₁ ∧ Undisturbed inp₂ s₂) ↔
      ∀ k, ¬ (s₁.arch inp₁ k).Strays s₁.pgm.mem ∧ ¬ (s₁.arch inp₁ k).Strays s₂.pgm.mem := by
  have hrel₁ := h₁.released (by omega)
  have hrel₂ := h₂.released (by omega)
  have hm := halike.machine hrel₁ hrel₂ ((h₁.ipNext (by omega)).trans (h₂.ipNext (by omega)).symm)
  have harch := arch_congr hm hagree
  constructor
  · rintro ⟨-, hu₁, hu₂⟩ k
    refine ⟨no_stray_of_undisturbed h₁ hn₁ hrun₁ hy₁ hu₁ k, ?_⟩
    rw [harch k]
    exact no_stray_of_undisturbed h₂ hn₂ hrun₂ hy₂ hu₂ k
  · intro hns
    have hns₂ : ∀ k, ¬ (s₂.arch inp₂ k).Strays s₂.pgm.mem := fun k => harch k ▸ (hns k).2
    refine ⟨?_, undisturbed_of_no_stray h₁ hn₁ hrun₁ fun k => (hns k).1,
      undisturbed_of_no_stray h₂ hn₂ hrun₂ hns₂⟩
    -- without a stray jump both core machines are the one architecture
    have hcore₁ : ∀ k, ((CoreMachine.next s₁.pgm.mem)^[k] (s₁.start inp₁)).machine
          = s₁.arch inp₁ k
        ∧ ((CoreMachine.next s₁.pgm.mem)^[k] (s₁.start inp₁)).Clear s₁.pgm.mem :=
      fun k => (h₁.clear hn₁ inp₁).iterate fun j _ => (hns j).1
    have hcore₂ : ∀ k, ((CoreMachine.next s₂.pgm.mem)^[k] (s₂.start inp₂)).machine
          = s₁.arch inp₁ k
        ∧ ((CoreMachine.next s₂.pgm.mem)^[k] (s₂.start inp₂)).Clear s₂.pgm.mem := by
      intro k
      rw [harch k]
      exact (h₂.clear hn₂ inp₂).iterate fun j _ => hns₂ j
    refine sameRun_of_machines hrel₁ hrel₂ hrun₁ hrun₂ hy₁ hy₂
      (fun k => (hcore₁ k).1.trans (hcore₂ k).1.symm) ?_
    intro k
    obtain ⟨hm₁, hc₁⟩ := hcore₁ k
    obtain ⟨hm₂, hc₂⟩ := hcore₂ k
    unfold CoreMachine.event
    cases hh : (s₁.arch inp₁ k).halt with
    | true =>
        rw [event_nil (Or.inl (hm₁ ▸ hh)), event_nil (Or.inl (hm₂ ▸ hh))]
    | false =>
        rw [hc₁.word (hm₁ ▸ hh), hc₂.word (hm₂ ▸ hh), hm₁, hm₂, Machine.wordAt, hagree k hh]
        rfl

/-! ## A word behind a jump -/

/-- A jump over the word `w` to an `EXIT`. -/
def jumpOver (w : BitVec 64) : Program := fun a =>
  if a = 0 then 0x0500000100000000#64 else if a = 1 then w else 0x9500000000000000#64

/-- A program at the end of a reset of three edges. -/
def started (pm : Program) : Sys :=
  run (fun _ => Inputs.selecting 0) (zero pm fun _ => 0) 3

theorem heldReset_started (pm : Program) : HeldReset 0 3 (zero pm fun _ => 0) (started pm) :=
  heldReset_selecting 0 3 _

theorem startsAlike_started (pm pm' : Program) :
    StartsAlike (fun _ => Inputs.still true) (started pm)
      (fun _ => Inputs.still true) (started pm') := by
  have hfirst : ∀ pm, ((started pm).step (Inputs.still true)).dataMem.mem = fun _ => 0 := fun pm =>
    first_data ((heldReset_started pm).released (by omega)) (Inputs.still_resetNInt true)
      (idle_of_resets (zero pm fun _ => 0) (by omega) fun _ _ =>
        ⟨Inputs.selecting_resetNInt 0, Inputs.selecting_csrCtl1 0⟩)
  exact ⟨rfl, (hfirst pm).trans (hfirst pm').symm, rfl⟩

/-- A word that is no instruction, behind the jump. -/
def strayed : Sys := started (jumpOver (BitVec.allOnes 64))

/-- The architecture never reads the word behind the jump. -/
theorem arch_strayed (k : Nat)
    (hlive : (strayed.arch (fun _ => Inputs.still true) k).halt = false) :
    jumpOver (BitVec.allOnes 64) ((strayed.arch (fun _ => Inputs.still true) k).ip.setWidth 9)
      = jumpOver 0 ((strayed.arch (fun _ => Inputs.still true) k).ip.setWidth 9) := by
  have hend : ∀ j, (strayed.arch (fun _ => Inputs.still true) (j + 2)).halt = true := by
    intro j
    induction j with
    | zero => rfl
    | succ j ih =>
        unfold arch at ih ⊢
        rw [Function.iterate_succ_apply', Machine.isaNext, Machine.exec_of_halt ih]
        exact ih
  rcases k with _ | _ | k
  · rfl
  · rfl
  · rw [hend k] at hlive
    cases hlive

/-- Two programs differ in a word that is never executed; one exits and the other fails. -/
theorem unexecuted_word_counts :
    (∀ k, (strayed.arch (fun _ => Inputs.still true) k).halt = false →
      strayed.pgm.mem ((strayed.arch (fun _ => Inputs.still true) k).ip.setWidth 9)
      = (started (jumpOver 0)).pgm.mem
          ((strayed.arch (fun _ => Inputs.still true) k).ip.setWidth 9))
    ∧ StartsAlike (fun _ => Inputs.still true) strayed
        (fun _ => Inputs.still true) (started (jumpOver 0))
    ∧ ¬ SameRun (fun _ => Inputs.still true) strayed
        (fun _ => Inputs.still true) (started (jumpOver 0)) := by
  refine ⟨arch_strayed, startsAlike_started _ _, ?_⟩
  intro hsame
  have herr : Ends (fun _ => Inputs.still true) strayed true _ _ :=
    ⟨5, by decide, by decide, rfl, rfl⟩
  have hexit : Ends (fun _ => Inputs.still true) (started (jumpOver 0)) false _ _ :=
    ⟨7, by decide, by decide, rfl, rfl⟩
  have hone := Ends.unique (Reachable.reset _ _ (Inputs.selecting_resetNInt 0))
    (fun _ => Inputs.still_resetNInt true) herr ((hsame.ends _ _ _).mpr hexit)
  cases hone.1

theorem unexecuted_words_strayed :
    (SameRun (fun _ => Inputs.still true) strayed
        (fun _ => Inputs.still true) (started (jumpOver 0))
      ∧ Undisturbed (fun _ => Inputs.still true) strayed
      ∧ Undisturbed (fun _ => Inputs.still true) (started (jumpOver 0))) ↔
      ∀ k, ¬ (strayed.arch (fun _ => Inputs.still true) k).Strays strayed.pgm.mem
        ∧ ¬ (strayed.arch (fun _ => Inputs.still true) k).Strays (started (jumpOver 0)).pgm.mem :=
  unexecuted_words (heldReset_started _) (by omega) (heldReset_started _) (by omega)
    (startsAlike_started _ _) (fun _ => Inputs.still_running) (fun _ => Inputs.still_running)
    Inputs.still_yielding Inputs.still_yielding arch_strayed

end Sys

end VeBpf
