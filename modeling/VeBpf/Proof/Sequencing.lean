import VeBpf.Proof.Follow

/-!
# Instruction sequencing

While the core owns the data memory and nobody writes the program memory, the
first `STATE_DECODE` cycle of an instruction finds the word at its address, with
every handshake down, and the next such cycle is at the architectural successor.
-/

namespace VeBpf

open Stutter

/-! ## From one new word to the next -/

/-- Reset is released, the program-load port is quiet, and the core has the data memory. -/
structure Inputs.Quiet (i : Inputs) : Prop extends i.Running where
  csr : i.csrCtl1 = false

section Run

variable {inp : Nat → Inputs} {s : Sys} {t : Nat} {st : Stage} {hi lo : Nat}
  {x : CoreMachine × List Execution}

namespace Sys

/-- The run is linked to `x` at time `t`. -/
abbrev Here (inp : Nat → Inputs) (s : Sys) (t : Nat)
    (x : CoreMachine × List Execution) (st : Stage) (hi lo : Nat) : Prop :=
  Linked s.pgm.mem (run inp s t) (watch inp s t) (executed inp s t) x st hi lo

/-- The core looks at the next word of `y`, or has halted in `y` or on that word. -/
def Arrived (inp : Nat → Inputs) (s : Sys) (u : Nat) (y : CoreMachine × List Execution) : Prop :=
  (∃ hi lo, s.Here inp u y .decode hi lo)
  ∨ ∃ z hi lo, s.Here inp u z .stopped hi lo
    ∧ (z.1.machine = y.1.machine ∨ z.1.machine = y.1.machine.fail)

/-- The design then holds the registers, the data bytes and the store of `y`. -/
theorem Arrived.holds {u : Nat} {y : CoreMachine × List Execution} (h : s.Arrived inp u y) :
    (run inp s u).cpu.regs = y.1.machine.regs ∧ (run inp s u).dataMem.mem = y.1.machine.mem
    ∧ (run inp s u).callHandler.store = y.1.machine.store := by
  rcases h with ⟨hi, lo, h⟩ | ⟨z, hi, lo, h, hz⟩
  · have rest := h.phase.rest_of_decode
    exact ⟨rest.holds.regs, rest.data.ram.holds, rest.call.store⟩
  · have hstop := h.phase.stopped_inv
    rcases hz with hz | hz
    · exact ⟨hz ▸ hstop.regs, hz ▸ hstop.ram.holds, hz ▸ hstop.call.store⟩
    · exact ⟨by rw [hstop.regs, hz]; rfl, by rw [hstop.ram.holds, hz]; rfl,
        by rw [hstop.call.store, hz]; rfl⟩

/-- Nothing begins and nothing halts from `t` on, until the core has arrived at `y`. -/
def Reaches (inp : Nat → Inputs) (s : Sys) (t : Nat)
    (y : CoreMachine × List Execution) : Prop :=
  ∃ u, t ≤ u
    ∧ (∀ v, t ≤ v → v < u → (watch inp s v).fresh (run inp s v) = false
        ∧ (run inp s v).cpu.halt = false)
    ∧ s.Arrived inp u y

theorem Reaches.now (h : s.Arrived inp t x) : s.Reaches inp t x :=
  ⟨t, Nat.le_refl t, fun _ h1 h2 => by omega, h⟩

theorem Reaches.later (hf : (watch inp s t).fresh (run inp s t) = false)
    (hh : (run inp s t).cpu.halt = false) (h : s.Reaches inp (t + 1) x) : s.Reaches inp t x := by
  obtain ⟨u, hu, hsilent, hend⟩ := h
  refine ⟨u, by omega, ?_, hend⟩
  intro v h1 h2
  rcases Nat.eq_or_lt_of_le h1 with rfl | hlt
  · exact ⟨hf, hh⟩
  · exact hsilent v hlt h2

/-- Nothing begins in a cycle of another stage. -/
theorem silent (h : s.Here inp t x st hi lo) (hd : st ≠ .decode) (hs : st ≠ .stopped) :
    (watch inp s t).fresh (run inp s t) = false ∧ (run inp s t).cpu.halt = false :=
  ⟨by rw [h.fresh]; simp [hd], (h.phase.holds hs).halt⟩

theorem reaches_of_stopped (h : s.Here inp t x .stopped hi lo) : s.Reaches inp t x :=
  Reaches.now (Or.inr ⟨x, hi, lo, h, Or.inl rfl⟩)

/-- A core that halts while it fetches has failed on the word it found. -/
theorem reaches_of_refused (hrun : ∀ t, (inp t).Quiet) (h : s.Here inp t x st hi lo)
    (hst : st = .fetch ∨ st = .delay) {hi' lo' : Nat}
    (h' : s.Here inp (t + 1) (CoreMachine.logNext s.pgm.mem x) .stopped hi' lo') :
    s.Reaches inp (t + 1) x := by
  have hlive : st ≠ .stopped := by rcases hst with rfl | rfl <;> simp
  have hrej := rejects_of_halt h.phase (hrun t).toRunning hst (h'.phase.halt_iff.mpr rfl)
  refine Reaches.now (Or.inr ⟨_, hi', lo', h', Or.inr ?_⟩)
  show x.1.machine.exec (x.1.word s.pgm.mem) = _
  rw [h.fetching.word (Or.inr ⟨hlive, hrej⟩),
    Machine.exec_of_rejects (h.phase.holds hlive).running hrej]

theorem reaches_of_delay (hrun : ∀ t, (inp t).Quiet) (h : s.Here inp t x .delay hi lo) :
    s.Reaches inp t x := by
  obtain ⟨hf, hh⟩ := silent h (by simp) (by simp)
  refine Reaches.later hf hh ?_
  rcases h.step (hrun t).toRunning with ⟨hi', lo', h', _⟩ | ⟨st', hi', lo', h', hst⟩
  · exact Reaches.now (Or.inl ⟨hi', lo', h'⟩)
  · rcases hst with rfl | ⟨hon, _⟩
    · exact reaches_of_refused hrun h (Or.inr rfl) h'
    · rcases hon with hc | hc <;> cases hc

theorem reaches_of_fetch (hrun : ∀ t, (inp t).Quiet) (h : s.Here inp t x .fetch hi lo) :
    s.Reaches inp t x := by
  obtain ⟨hf, hh⟩ := silent h (by simp) (by simp)
  refine Reaches.later hf hh ?_
  rcases h.step (hrun t).toRunning with ⟨hi', lo', h', _⟩ | ⟨st', hi', lo', h', hst⟩
  · exact reaches_of_delay hrun h'
  · rcases hst with rfl | ⟨hon, _⟩
    · exact reaches_of_refused hrun h (Or.inl rfl) h'
    · rcases hon with hc | hc <;> cases hc

/-- A finished word is followed by the fetch of the next. -/
theorem reaches_of_finished (hrun : ∀ t, (inp t).Quiet) (h : s.Here inp t x st hi lo)
    (hst : st = .stopped ∨ st = .fetch ∨ st = .delay) : s.Reaches inp t x := by
  rcases hst with rfl | rfl | rfl
  · exact reaches_of_stopped h
  · exact reaches_of_fetch hrun h
  · exact reaches_of_delay hrun h

/-- A word under way is finished: the ranks are used up. -/
theorem reaches_of_busy (hrun : ∀ t, (inp t).Quiet) (h : s.Here inp t x .busy hi lo) :
    s.Reaches inp t (CoreMachine.logNext s.pgm.mem x) := by
  generalize hn : hi + lo = n
  induction n using Nat.strong_induction_on generalizing t hi lo with
  | h n ih =>
      obtain ⟨hf, hh⟩ := silent h (by simp) (by simp)
      refine Reaches.later hf hh ?_
      rcases h.step (hrun t).toRunning with ⟨hi', lo', h', _, hlt⟩ | ⟨st', hi', lo', h', hst⟩
      · have := hlt (hrun t).csr
        exact ih (hi' + lo') (by omega) h' rfl
      · refine reaches_of_finished hrun h' ?_
        rcases hst with rfl | ⟨_, hst⟩
        · exact Or.inl rfl
        · exact Or.inr hst

/-- **After the first look at a word, the core gets to the next one or halts.** -/
theorem reaches_of_decode (hrun : ∀ t, (inp t).Quiet) (h : s.Here inp t x .decode hi lo) :
    s.Reaches inp (t + 1) (CoreMachine.logNext s.pgm.mem x) := by
  rcases h.step (hrun t).toRunning with ⟨hi', lo', h', _⟩ | ⟨st', hi', lo', h', hst⟩
  · exact reaches_of_busy hrun h'
  · refine reaches_of_finished hrun h' ?_
    rcases hst with rfl | ⟨_, hst⟩
    · exact Or.inl rfl
    · exact Or.inr hst

/-- At any time after the reset the run is linked to some state of the core machine. -/
theorem exists_here (hs : Released s) (hrun : ∀ t, (inp t).Running) (ht : 0 < t) :
    ∃ x st hi lo, s.Here inp t x st hi lo := by
  obtain ⟨pos, his, los, htrack⟩ := (follows hs hrun).exists_track (Or.inl ⟨rfl, rfl, rfl, rfl⟩)
  rcases htrack.at_pos t with ⟨h0, _⟩ | ⟨_, st, h⟩
  · omega
  · exact ⟨_, st, _, _, h⟩

/-- A new word is the first `STATE_DECODE` cycle of the machine's word. -/
theorem here_of_fresh (hs : Released s) (hrun : ∀ t, (inp t).Running)
    (hf : (watch inp s t).fresh (run inp s t) = true) :
    ∃ x hi lo, s.Here inp t x .decode hi lo := by
  have ht : 0 < t := by
    rcases Nat.eq_zero_or_pos t with rfl | ht
    · cases hf
    · exact ht
  obtain ⟨x, st, hi, lo, h⟩ := exists_here hs hrun ht
  rw [h.fresh] at hf
  obtain rfl := of_decide_eq_true hf
  exact ⟨x, hi, lo, h⟩

end Sys

/-! ## The state at a new instruction -/

/-- What the first `STATE_DECODE` cycle of an instruction finds. -/
structure AtInstruction (s : Sys) : Prop where
  word : s.cpu.instruction = s.pgm.mem (s.cpu.ip.setWidth 9)
  ipNext : s.cpu.ipNext = s.cpu.ip + 1
  prefetched : s.pgm.dataOut = s.pgm.mem (s.cpu.ipNext.setWidth 9)
  keepOp : s.cpu.keepOp = 0
  dataAck : s.cpu.cpuDataAck = false
  divAck : s.cpu.cpuDiv64Ack = false
  dataStb : s.cpu.dataStb = false
  divStb : s.cpu.div64Stb = false
  shiftStb : s.cpu.arsh64Stb = false
  callStb : s.cpu.callHandlerStb = false

variable {pm : Program} {k : Watch} {log : List Execution}

/-- The word that the core looks at for the first time is the next one of the machine. -/
theorem Linked.machine_next (h : Linked pm s k log x .decode hi lo) :
    (x.1.next pm).machine = x.1.machine.exec s.cpu.instruction := by
  rw [← h.fetching.1]
  rfl

/-- The observer and the machine agree that no `LDDW` is under way. -/
theorem Linked.upper_none (h : Linked pm s k log x st hi lo) (hst : st ≠ .stopped)
    (hup : k.upper = false) :
    x.1.machine.upper = none := by
  have hsome := h.upper hst
  cases hx : x.1.machine.upper with
  | none => rfl
  | some d => rw [hx, hup] at hsome; cases hsome

theorem Linked.atInstruction (h : Linked pm s k log x .decode hi lo) (hup : k.upper = false) :
    AtInstruction s := by
  obtain ⟨hword, hat, hafter⟩ := h.fetching
  have hu := h.upper_none (by simp) hup
  cases h.phase with
  | decode rest hs hon =>
      have hprog := h.program
      refine ⟨?_, ?_, ?_, ?_, rest.data.taken, rest.div.taken, rest.data.stb, rest.div.stb,
        rest.shift.stb, rest.call.stb⟩
      · rw [hat, hprog, hon.ip]; rfl
      · rw [hon.ipNext, hon.ip]
      · rw [hafter, hprog, hon.ipNext]; rfl
      · rw [rest.holds.keepOp, hu]; rfl

/-- The architectural successor of the instruction in `instruction`. -/
def Cpu.successor (c : Cpu) : BitVec 10 :=
  let w := c.instruction
  if opcodeOf w = ebpfOpLddw then c.ip + 2
  else if jmpArm (opcodeOf w) (c.regs.read (dstOf w)) (c.regs.read (srcOf w)) (immediateOf w)
      = some true then
    BitVec.ofInt 10 (c.ip.toNat + 1 + (offsetOf w).toInt)
  else c.ip + 1

/-- The 16-bit sum of the source, cut to ten bits, is the signed jump. -/
theorem Machine.target_eq (m : Machine) (w : BitVec 64) :
    m.target w = BitVec.ofInt 10 (m.ip.toNat + 1 + (offsetOf w).toInt) := by
  apply BitVec.eq_of_toNat_eq
  unfold Machine.target
  have hip := m.ip.isLt
  have hoff := (offsetOf w).isLt
  rw [BitVec.toNat_setWidth, BitVec.toNat_add, BitVec.toNat_setWidth, BitVec.toNat_add,
    BitVec.toNat_ofInt, BitVec.toInt_eq_toNat_cond]
  have h1 : (1 : BitVec 10).toNat = 1 := rfl
  rw [h1]
  split_ifs <;> omega

/-- The machine's next address is the successor that the registers of the core give. -/
theorem Linked.successor (h : Linked pm s k log x .decode hi lo) (hup : k.upper = false)
    (hop : opcodeOf s.cpu.instruction ≠ ebpfOpLddw)
    (hrun : (x.1.next pm).machine.halt = false) :
    (x.1.next pm).machine.ip = s.cpu.successor := by
  have hu := h.upper_none (by simp) hup
  have hregs := (h.phase.holds (by simp)).regs
  have hip := h.phase.ipNext.ip
  rw [h.machine_next] at hrun ⊢
  rw [Machine.exec_ip hrun hu, Machine.target_eq]
  unfold Cpu.successor Machine.taken
  dsimp only
  rw [if_neg hop, hregs, hip]
  simp only [beq_iff_eq]

/-- An `LDDW` and its second slot take the machine two words on. -/
theorem Linked.successor_lddw (h : Linked pm s k log x .decode hi lo) (hup : k.upper = false)
    (hop : opcodeOf s.cpu.instruction = ebpfOpLddw)
    (hrun : ((x.1.next pm).next pm).machine.halt = false) :
    ((x.1.next pm).next pm).machine.ip = s.cpu.successor := by
  have hip := h.phase.ipNext.ip
  have hu := h.upper_none (by simp) hup
  have hrun1 : (x.1.next pm).machine.halt = false := (Machine.running_of_exec hrun).1
  have hip1 : (x.1.next pm).machine.ip = x.1.machine.ip + 1 := by
    rw [h.machine_next] at hrun1 ⊢
    rw [Machine.exec_ip hrun1 hu, Machine.taken_false (by rw [hop]; decide)]
    rfl
  have hup1 : (x.1.next pm).machine.upper.isSome = true := by
    rw [h.machine_next] at hrun1 ⊢
    rw [Machine.exec_upper hrun1, hu, hop]
    decide
  obtain ⟨d, hd⟩ := Option.isSome_iff_exists.mp hup1
  have hip2 : ((x.1.next pm).next pm).machine.ip = (x.1.next pm).machine.ip + 1 :=
    Machine.exec_ip_upper hrun hd
  rw [hip2, hip1, ← hip]
  unfold Cpu.successor
  dsimp only
  rw [if_pos hop, BitVec.add_assoc]
  rfl

/-- From the first `STATE_DECODE` cycle of one instruction to that of the next, or to the halt. -/
structure Sys.NextBegin (inp : Nat → Inputs) (s : Sys) (t u : Nat) : Prop where
  lt : t < u
  quiet : ∀ v, t < v → v < u → (Sys.watch inp s v).firstDecode (Sys.run inp s v) = false
    ∧ (Sys.run inp s v).cpu.halt = false
  here : (Sys.run inp s u).cpu.halt = true
    ∨ (Sys.watch inp s u).firstDecode (Sys.run inp s u) = true

/-- A first `STATE_DECODE` cycle is that of a word of the machine with no `LDDW` under way. -/
theorem Sys.here_of_firstDecode (hs : Released s) (hrun : ∀ t, (inp t).Running)
    (hfirst : (Sys.watch inp s t).firstDecode (Sys.run inp s t) = true) :
    ∃ x hi lo, s.Here inp t x .decode hi lo ∧ (Sys.watch inp s t).upper = false := by
  unfold Watch.firstDecode at hfirst
  obtain ⟨hfresh, hnup⟩ := Bool.and_eq_true_iff.mp hfirst
  obtain ⟨x, hi, lo, h⟩ := Sys.here_of_fresh hs hrun hfresh
  exact ⟨x, hi, lo, h, by simpa using hnup⟩

/-- A cycle that is not a new word begins no instruction. -/
theorem Watch.firstDecode_of_not_fresh {k : Watch} (h : k.fresh s = false) :
    k.firstDecode s = false := by
  rw [Watch.firstDecode, h]
  rfl

/-- A new word begins an instruction unless it is the second slot of an `LDDW`. -/
theorem Linked.firstDecode (h : Linked pm s k log x .decode hi lo) :
    k.firstDecode s = !x.1.machine.upper.isSome := by
  rw [Watch.firstDecode, h.fresh, h.upper (by simp)]
  simp

/-- After an instruction's first word, `upper` is set exactly if the word is an `LDDW`. -/
theorem Linked.next_upper (h : Linked pm s k log x .decode hi lo) (hup : k.upper = false)
    (hrun : (x.1.next pm).machine.halt = false) :
    (x.1.next pm).machine.upper.isSome = (opcodeOf s.cpu.instruction == ebpfOpLddw) := by
  rw [h.machine_next] at hrun ⊢
  rw [Machine.exec_upper hrun, h.upper_none (by simp) hup]
  rfl

/-- **An instruction of one word** is followed by the next instruction or a halt. -/
theorem Sys.next_of_single (hrun : ∀ t, (inp t).Quiet) (h : s.Here inp t x .decode hi lo)
    (hup : (Sys.watch inp s t).upper = false)
    (hop : opcodeOf (Sys.run inp s t).cpu.instruction ≠ ebpfOpLddw) :
    ∃ u, s.NextBegin inp t u ∧ s.Arrived inp u (CoreMachine.logNext s.pgm.mem x) := by
  obtain ⟨u, htu, hsilent, hend⟩ := Sys.reaches_of_decode hrun h
  refine ⟨u, ⟨by omega, ?_, ?_⟩, hend⟩
  · intro v h1 h2
    obtain ⟨hf, hh⟩ := hsilent v h1 h2
    exact ⟨Watch.firstDecode_of_not_fresh hf, hh⟩
  · rcases hend with ⟨hi', lo', h'⟩ | ⟨z, hi', lo', h', _⟩
    · have hsome := h.next_upper hup (h'.phase.holds (by simp)).running
      rw [beq_eq_false_iff_ne.mpr hop] at hsome
      refine Or.inr ?_
      rw [h'.firstDecode]
      exact congrArg (!·) hsome
    · exact Or.inl (h'.phase.halt_iff.mpr rfl)

/-- **An `LDDW`** is followed by its second slot, and that by the next instruction or a halt. -/
theorem Sys.next_of_lddw (hrun : ∀ t, (inp t).Quiet) (h : s.Here inp t x .decode hi lo)
    (hup : (Sys.watch inp s t).upper = false)
    (hop : opcodeOf (Sys.run inp s t).cpu.instruction = ebpfOpLddw) :
    ∃ u, s.NextBegin inp t u
      ∧ (s.Arrived inp u (CoreMachine.logNext s.pgm.mem (CoreMachine.logNext s.pgm.mem x))
        ∨ (Sys.run inp s u).cpu.halt = true) := by
  obtain ⟨u, htu, hsilent, hend⟩ := Sys.reaches_of_decode hrun h
  rcases hend with ⟨hi', lo', h'⟩ | ⟨z, hi', lo', h', _⟩
  · have hsome := h.next_upper hup (h'.phase.holds (by simp)).running
    rw [hop, beq_self_eq_true] at hsome
    -- the second slot is a new word but no instruction
    have hslot : (Sys.watch inp s u).firstDecode (Sys.run inp s u) = false := by
      rw [h'.firstDecode]
      exact congrArg (!·) hsome
    obtain ⟨u', huu', hsilent', hend'⟩ := Sys.reaches_of_decode hrun h'
    refine ⟨u', ⟨by omega, ?_, ?_⟩, Or.inl hend'⟩
    · intro v h1 h2
      rcases Nat.lt_trichotomy v u with hv | rfl | hv
      · obtain ⟨hf, hh⟩ := hsilent v h1 hv
        exact ⟨Watch.firstDecode_of_not_fresh hf, hh⟩
      · exact ⟨hslot, (h'.phase.holds (by simp)).halt⟩
      · obtain ⟨hf, hh⟩ := hsilent' v hv h2
        exact ⟨Watch.firstDecode_of_not_fresh hf, hh⟩
    · rcases hend' with ⟨hi'', lo'', h''⟩ | ⟨z, hi'', lo'', h'', _⟩
      · refine Or.inr ?_
        have hlive : ((x.1.next s.pgm.mem).next s.pgm.mem).machine.halt = false :=
          (h''.phase.holds (by simp)).running
        rw [h''.firstDecode]
        show (!((x.1.next s.pgm.mem).machine.exec
          ((x.1.next s.pgm.mem).word s.pgm.mem)).upper.isSome) = true
        rw [Machine.exec_upper hlive, hsome]
        rfl
      · exact Or.inl (h''.phase.halt_iff.mpr rfl)
  · have hhalt := h'.phase.halt_iff.mpr rfl
    refine ⟨u, ⟨by omega, ?_, Or.inl hhalt⟩, Or.inr hhalt⟩
    intro v h1 h2
    obtain ⟨hf, hh⟩ := hsilent v h1 h2
    exact ⟨Watch.firstDecode_of_not_fresh hf, hh⟩

/-- The instruction that begins next does so at the address of the machine. -/
theorem Sys.NextBegin.at_ip {u : Nat} {a : BitVec 10} {y : CoreMachine × List Execution}
    (hnext : s.NextBegin inp t u) (hend : s.Arrived inp u y)
    (hip : y.1.machine.halt = false → y.1.machine.ip = a) :
    (Sys.run inp s u).cpu.halt = true
    ∨ ((Sys.watch inp s u).firstDecode (Sys.run inp s u) = true
      ∧ (Sys.run inp s u).cpu.ip = a) := by
  rcases hend with ⟨hi', lo', h'⟩ | ⟨z, hi', lo', h', _⟩
  · refine hnext.here.imp id fun hbegin => ⟨hbegin, ?_⟩
    rw [h'.phase.ipNext.ip]
    exact hip (h'.phase.holds (by simp)).running
  · exact Or.inl (h'.phase.halt_iff.mpr rfl)

/-- **Instruction sequencing.** After any reset edge, in a run with reset released, the program
memory left alone and the data memory with the core: whenever an instruction begins, its word and
the prefetched one are those of the program memory, every handshake is down, and the next
instruction to begin, if the run does not halt first, is the architectural successor. -/
theorem sequencing (inp : Nat → Inputs) (s₀ : Sys) (i₀ : Inputs) (hreset : i₀.resetNInt = false)
    (hrun : ∀ t, (inp t).Quiet) (t : Nat)
    (hfirst : (Sys.watch inp (s₀.step i₀) t).firstDecode (Sys.run inp (s₀.step i₀) t) = true) :
    AtInstruction (Sys.run inp (s₀.step i₀) t)
    ∧ (Sys.run inp (s₀.step i₀) t).pgm.mem = (s₀.step i₀).pgm.mem
    ∧ ∃ u, t < u
      ∧ (∀ v, t < v → v < u →
          (Sys.watch inp (s₀.step i₀) v).firstDecode (Sys.run inp (s₀.step i₀) v) = false
          ∧ (Sys.run inp (s₀.step i₀) v).cpu.halt = false)
      ∧ ((Sys.run inp (s₀.step i₀) u).cpu.halt = true
        ∨ ((Sys.watch inp (s₀.step i₀) u).firstDecode (Sys.run inp (s₀.step i₀) u) = true
          ∧ (Sys.run inp (s₀.step i₀) u).cpu.ip
            = (Sys.run inp (s₀.step i₀) t).cpu.successor)) := by
  generalize hs : s₀.step i₀ = s at hfirst ⊢
  have hrel : Released s := hs ▸ released_of_reset hreset
  obtain ⟨x, hi, lo, h, hup⟩ :=
    Sys.here_of_firstDecode hrel (fun t => (hrun t).toRunning) hfirst
  refine ⟨h.atInstruction hup, h.program, ?_⟩
  by_cases hop : opcodeOf (Sys.run inp s t).cpu.instruction = ebpfOpLddw
  · obtain ⟨u, hnext, hend⟩ := Sys.next_of_lddw hrun h hup hop
    refine ⟨u, hnext.lt, hnext.quiet, ?_⟩
    rcases hend with harrived | hhalt
    · exact hnext.at_ip harrived (h.successor_lddw hup hop)
    · exact Or.inl hhalt
  · obtain ⟨u, hnext, hend⟩ := Sys.next_of_single hrun h hup hop
    exact ⟨u, hnext.lt, hnext.quiet, hnext.at_ip hend (h.successor hup hop)⟩

/-- A load, a jump over the next word, and `EXIT`s. -/
def loadAndJump : Program := fun a =>
  if a = 0 then 0x7101000000000000#64
  else if a = 1 then 0x0500000100000000#64
  else if a = 2 then 0xb702000000000063#64 else 0x9500000000000000#64

/-- The design at the end of a reset, about to run it. -/
def jumping : Sys := (Sys.zero loadAndJump fun _ => 0).step (Inputs.still false)

/-- The jump begins next after the load, and the `EXIT` at its target next after the jump. -/
theorem sequencing_jumping :
    AtInstruction (Sys.run (fun _ => Inputs.still true) jumping 17)
    ∧ (∃ u, 2 < u ∧ (Sys.watch (fun _ => Inputs.still true) jumping u).firstDecode
        (Sys.run (fun _ => Inputs.still true) jumping u) = true
      ∧ (Sys.run (fun _ => Inputs.still true) jumping u).cpu.ip = 1)
    ∧ ∃ u, 17 < u ∧ (Sys.watch (fun _ => Inputs.still true) jumping u).firstDecode
        (Sys.run (fun _ => Inputs.still true) jumping u) = true
      ∧ (Sys.run (fun _ => Inputs.still true) jumping u).cpu.ip = 3 := by
  have hrun := sequencing (fun _ => Inputs.still true) (Sys.zero loadAndJump fun _ => 0)
    (Inputs.still false) rfl fun _ => ⟨⟨rfl, rfl, rfl⟩, rfl⟩
  have hno : ∀ v, v ≤ 20 → (Sys.run (fun _ => Inputs.still true) jumping v).cpu.halt = false := by
    decide
  -- the next beginning is at most the one known, so the run has not halted there
  obtain ⟨-, -, u₁, hlt₁, hquiet₁, hend₁⟩ := hrun 2 (by decide)
  have hle₁ : u₁ ≤ 17 := by
    by_contra hc
    exact absurd (hquiet₁ 17 (by omega) (by omega)).1 (by decide)
  obtain ⟨hat, -, u₂, hlt₂, hquiet₂, hend₂⟩ := hrun 17 (by decide)
  have hle₂ : u₂ ≤ 20 := by
    by_contra hc
    exact absurd (hquiet₂ 20 (by omega) (by omega)).1 (by decide)
  refine ⟨hat, ⟨u₁, hlt₁, ?_⟩, u₂, hlt₂, ?_⟩
  · obtain ⟨hfirst, hip⟩ := hend₁.resolve_left (by
      rw [show (Sys.zero loadAndJump fun _ => 0).step (Inputs.still false) = jumping by rfl]
      simp [hno u₁ (by omega)])
    exact ⟨hfirst, hip.trans (by decide)⟩
  · obtain ⟨hfirst, hip⟩ := hend₂.resolve_left (by
      rw [show (Sys.zero loadAndJump fun _ => 0).step (Inputs.still false) = jumping by rfl]
      simp [hno u₂ (by omega)])
    exact ⟨hfirst, hip.trans (by decide)⟩

end Run

end VeBpf
