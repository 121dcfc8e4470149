import VeBpf.Isa.Facts
import VeBpf.Proof.Units
import VeBpf.Proof.DataMem

/-!
# Where the core stands in an instruction

`Phase m s` ties the registers of the design to the machine of
`VeBpf.Isa.Machine`: `m` is the machine before the word that the core is fetching
or carrying out, and the phase says how far the core has come with it. Nothing
here speaks of the program memory, so a phase survives any program load.

A phase carries two ranks. Their sum falls with every clock edge at which the
core owns the data memory; the second may be reset when the host takes the memory
away in the middle of an access, the first never rises.
-/

namespace VeBpf

open ByteMem

/-! ## What each part holds -/

/-- The architectural registers. -/
structure Holds (m : Machine) (c : Cpu) : Prop where
  running : m.halt = false
  noError : m.error = false
  halt : c.halt = false
  error : c.error = false
  regs : c.regs = m.regs
  keepOp : c.keepOp = if m.upper.isSome then ebpfOpLddw else 0
  keepDst : ∀ d, m.upper = some d → c.keepDst = d ∧ d.toNat < maxRegs

/-- The data memory is not in use. -/
structure DataQuiet (m : Machine) (s : Sys) : Prop where
  stb : s.cpu.dataStb = false
  we : s.cpu.dataWe = false
  taken : s.cpu.cpuDataAck = false
  ram : s.dataMem.Idle m.mem

/-- The divider is not in use. Where its counter stands does not matter. -/
structure DivQuiet (s : Sys) : Prop where
  stb : s.cpu.div64Stb = false
  taken : s.cpu.cpuDiv64Ack = false

/-- The shifter is not in use. -/
structure ShiftQuiet (s : Sys) : Prop where
  stb : s.cpu.arsh64Stb = false
  ack : s.arsh64.ack = false
  state : s.arsh64.state = false

/-- The call handler is not in use, and the word it may be writing is already there. -/
structure CallQuiet (m : Machine) (s : Sys) : Prop where
  stb : s.cpu.callHandlerStb = false
  store : s.callHandler.store = m.store
  settled : m.store.written s.cpu.callHandlerR1 s.cpu.callHandlerR2 = m.store

/-- The instruction pointer is on the current word and the next fetch is ahead of it. -/
structure OnWord (m : Machine) (c : Cpu) : Prop where
  ip : c.ip = m.ip
  ipNext : c.ipNext = m.ip + 1

/-- The word in `instruction` has been accepted and starts an instruction. -/
structure Accepted (m : Machine) (c : Cpu) : Prop where
  holds : Holds m c
  onWord : OnWord m c
  upper : m.upper = none
  accepted : m.rejects c.instruction = false

namespace Accepted

variable {m : Machine} {c : Cpu}

theorem keepOp (h : Accepted m c) : c.keepOp = 0 := by
  rw [h.holds.keepOp, h.upper]; rfl

theorem opcode (h : Accepted m c) : c.opcode = opcodeOf c.instruction := by
  unfold Cpu.opcode
  rw [if_pos h.keepOp]

theorem dst (h : Accepted m c) : c.dst = dstOf c.instruction := by
  unfold Cpu.dst
  rw [if_pos h.keepOp]

theorem dstReg (h : Accepted m c) : c.dstReg = m.regs.read (dstOf c.instruction) := by
  unfold Cpu.dstReg
  rw [h.dst, h.holds.regs]

theorem srcReg (h : Accepted m c) : c.srcReg = m.regs.read (srcOf c.instruction) := by
  unfold Cpu.srcReg Cpu.src
  rw [h.holds.regs]

end Accepted

/-- The checks at the head of every clock edge are those of the machine. -/
theorem Holds.rejects {m : Machine} {c : Cpu} (h : Holds m c) :
    c.rejects = m.rejects c.instruction := by
  have hkeep := h.keepOp
  unfold Cpu.rejects Machine.rejects Cpu.src Cpu.dst
  cases hu : m.upper with
  | none =>
      rw [hu] at hkeep
      simp only [Option.isSome_none, Bool.false_eq_true, if_false] at hkeep
      simp [hkeep]
  | some d =>
      obtain ⟨hd, hlt⟩ := h.keepDst d hu
      rw [hu] at hkeep
      simp only [Option.isSome_some, if_true] at hkeep
      have hne : ¬ ebpfOpLddw = 0 := by decide
      rw [hkeep, if_neg hne, hd]
      simp [show ¬ maxRegs ≤ d.toNat by omega]

/-! ## The phases -/

/-- The coarse position, as far as an observer of the core needs it. -/
inductive Stage where
  | fetch
  | delay
  | decode
  | busy
  | stopped
  deriving DecidableEq

/-- Everything at rest. -/
structure Rest (m : Machine) (s : Sys) : Prop where
  holds : Holds m s.cpu
  data : DataQuiet m s
  div : DivQuiet s
  shift : ShiftQuiet s
  call : CallQuiet m s

/-- A load is under way. -/
structure Loading (m : Machine) (s : Sys) : Prop where
  accepted : Accepted m s.cpu
  div : DivQuiet s
  shift : ShiftQuiet s
  call : CallQuiet m s
  cls : opclassOf (opcodeOf s.cpu.instruction) = opcLdx
  we : s.cpu.dataWe = false

/-- A store of the low `ww` bytes of `v` is under way. -/
structure Storing (m : Machine) (s : Sys) (ww : BitVec 4) (v : BitVec 64) : Prop where
  accepted : Accepted m s.cpu
  div : DivQuiet s
  shift : ShiftQuiet s
  call : CallQuiet m s
  cls : opclassOf (opcodeOf s.cpu.instruction) = opcSt
    ∨ opclassOf (opcodeOf s.cpu.instruction) = opcStx
  effect : m.dispatch s.cpu.instruction = m.storeTo s.cpu.instruction (some (ww, v))
  width : 0 < ww.toNat ∧ ww.toNat ≤ 8

/-- The port of the data memory carries the store. -/
structure StorePort (m : Machine) (c : Cpu) (ww : BitVec 4) (v : BitVec 64) : Prop where
  adr : c.dataAdr = m.storeAddress c.instruction
  we : c.dataWe = true
  ww : c.dataWw = ww
  dat : c.dataDatW = v
  taken : c.cpuDataAck = false

/-- A division is under way. -/
structure Dividing (m : Machine) (s : Sys) (q : DivRequest) : Prop where
  accepted : Accepted m s.cpu
  data : DataQuiet m s
  shift : ShiftQuiet s
  call : CallQuiet m s
  cls : isAlu s.cpu.instruction
  request : (m.aluWork s.cpu.instruction).div = some q

/-- A shift is under way. -/
structure Shifting (m : Machine) (s : Sys) (q : ShiftRequest) : Prop where
  accepted : Accepted m s.cpu
  data : DataQuiet m s
  div : DivQuiet s
  call : CallQuiet m s
  cls : isAlu s.cpu.instruction
  noDiv : (m.aluWork s.cpu.instruction).div = none
  request : (m.aluWork s.cpu.instruction).shift = some q
  state : s.cpu.stateNext = .decode
  arith : s.cpu.arsh64Arith = q.arith
  left : s.cpu.arsh64Left = q.left
  value : s.cpu.arsh64Value = q.value
  shiftBy : s.cpu.arsh64Shift = q.shift
  stb : s.cpu.arsh64Stb = true

/-- A call is under way. -/
structure CallingOut (m : Machine) (s : Sys) : Prop where
  accepted : Accepted m s.cpu
  data : DataQuiet m s
  div : DivQuiet s
  shift : ShiftQuiet s
  op : opcodeOf s.cpu.instruction = ebpfOpCall
  state : s.cpu.stateNext = .callPending
  stb : s.cpu.callHandlerStb = true
  func : s.cpu.callHandlerFunc = (immediateOf s.cpu.instruction).setWidth 64
  r1 : s.cpu.callHandlerR1 = m.regs.read 1
  r2 : s.cpu.callHandlerR2 = m.regs.read 2
  handler : s.callHandler.Calling m.store s.cpu.callHandlerFunc s.cpu.callHandlerR1
    s.cpu.callHandlerR2

/-- The core has halted. -/
structure Stopped (m : Machine) (s : Sys) : Prop where
  halted : m.halt = true
  halt : s.cpu.halt = true
  error : s.cpu.error = m.error
  regs : s.cpu.regs = m.regs
  stb : s.cpu.dataStb = false
  ram : s.dataMem.Idle m.mem
  call : CallQuiet m s

/-- **Where the core stands with the word that comes next for `m`.** -/
inductive Phase (m : Machine) (s : Sys) : Stage → Nat → Nat → Prop
  | fetch (rest : Rest m s) (state : s.cpu.stateNext = .opFetch)
      (ipNext : s.cpu.ipNext = m.ip) : Phase m s .fetch 70 10
  | delay (rest : Rest m s) (state : s.cpu.stateNext = .opFetchDelay)
      (temp : s.cpu.stateNextTemp = .decode) (on : OnWord m s.cpu) : Phase m s .delay 69 10
  | decode (rest : Rest m s) (state : s.cpu.stateNext = .decode) (on : OnWord m s.cpu) :
      Phase m s .decode 68 10
  | loadStart (h : Loading m s) (state : s.cpu.stateNext = .dataFetch)
      (stb : s.cpu.dataStb = false) (adr : s.cpu.dataAdr = m.loadAddress s.cpu.instruction)
      (taken : s.cpu.cpuDataAck = false) (ram : s.dataMem.Idle m.mem) : Phase m s .busy 3 10
  | load (j : Nat) (h : Loading m s) (state : s.cpu.stateNext = .dataFetch)
      (stb : s.cpu.dataStb = true) (adr : s.cpu.dataAdr = m.loadAddress s.cpu.instruction)
      (taken : s.cpu.cpuDataAck = false)
      (ram : s.dataMem.ReadAt m.mem (m.loadAddress s.cpu.instruction) j) : Phase m s .busy 2 j
  | loadDone (h : Loading m s) (state : s.cpu.stateNext = .decode)
      (stb : s.cpu.dataStb = false) (taken : s.cpu.cpuDataAck = true)
      (ram : s.dataMem.mem = m.mem) (landed : s.dataMem.settled = m.mem)
      (got : s.dataMem.Collected m.mem (m.loadAddress s.cpu.instruction) 8)
      (ack : s.dataMem.ack = true) : Phase m s .busy 1 0
  | storeStart (ww : BitVec 4) (v : BitVec 64) (h : Storing m s ww v)
      (state : s.cpu.stateNext = .dataFetch) (stb : s.cpu.dataStb = false)
      (port : StorePort m s.cpu ww v) (ram : s.dataMem.Idle m.mem) : Phase m s .busy 3 10
  | store (ww : BitVec 4) (v : BitVec 64) (j : Nat) (h : Storing m s ww v)
      (state : s.cpu.stateNext = .dataFetch) (stb : s.cpu.dataStb = true)
      (port : StorePort m s.cpu ww v)
      (ram : s.dataMem.WriteAt m.mem (m.storeAddress s.cpu.instruction) v ww.toNat j) :
      Phase m s .busy 2 j
  | storeDone (ww : BitVec 4) (v : BitVec 64) (h : Storing m s ww v)
      (state : s.cpu.stateNext = .decode) (stb : s.cpu.dataStb = false)
      (we : s.cpu.dataWe = false) (taken : s.cpu.cpuDataAck = true)
      (ram : s.dataMem.mem = storeLE m.mem (m.storeAddress s.cpu.instruction) v ww.toNat)
      (landed : s.dataMem.settled = s.dataMem.mem) (ack : s.dataMem.ack = true) :
      Phase m s .busy 1 0
  | divStart (q : DivRequest) (h : Dividing m s q) (state : s.cpu.stateNext = .divPending)
      (stb : s.cpu.div64Stb = true) (taken : s.cpu.cpuDiv64Ack = false)
      (dividend : s.cpu.div64Dividend = q.dividend) (divisor : s.cpu.div64Divisor = q.divisor) :
      Phase m s .busy 67 0
  | divRun (q : DivRequest) (n : Nat) (h : Dividing m s q) (state : s.cpu.stateNext = .divPending)
      (stb : s.cpu.div64Stb = false) (taken : s.cpu.cpuDiv64Ack = false)
      (nonzero : q.divisor ≠ 0#64) (unit : s.div64.Busy q.dividend q.divisor n) (hn : n ≤ 64) :
      Phase m s .busy (n + 2) 0
  | divZero (q : DivRequest) (h : Dividing m s q) (state : s.cpu.stateNext = .divPending)
      (stb : s.cpu.div64Stb = false) (taken : s.cpu.cpuDiv64Ack = false)
      (zero : q.divisor = 0#64) (ack : s.div64.ack = true) (err : s.div64.err = true) :
      Phase m s .busy 1 0
  | divDone (q : DivRequest) (h : Dividing m s q) (state : s.cpu.stateNext = .decode)
      (stb : s.cpu.div64Stb = false) (taken : s.cpu.cpuDiv64Ack = true)
      (nonzero : q.divisor ≠ 0#64) (unit : s.div64.Busy q.dividend q.divisor 0) :
      Phase m s .busy 1 0
  | shiftStart (q : ShiftRequest) (h : Shifting m s q) (ack : s.arsh64.ack = false)
      (ready : s.arsh64.state = false) : Phase m s .busy 3 0
  | shiftLoaded (q : ShiftRequest) (h : Shifting m s q) (unit : s.arsh64.Loaded q) :
      Phase m s .busy 2 0
  | shiftDone (q : ShiftRequest) (h : Shifting m s q) (ack : s.arsh64.ack = true)
      (out : s.arsh64.out = q.result) : Phase m s .busy 1 0
  | call (h : CallingOut m s) :
      Phase m s .busy (s.callHandler.wait s.cpu.callHandlerFunc + 1) 0
  | stopped (h : Stopped m s) : Phase m s .stopped 0 0

/-! ## What every phase of a kind has in common -/

namespace Phase

variable {m : Machine} {s : Sys} {st : Stage} {hi lo : Nat}

/-- A word that takes several cycles has been accepted, and is no `LDDW`. -/
theorem busy (h : Phase m s .busy hi lo) :
    Accepted m s.cpu ∧ opclassOf (opcodeOf s.cpu.instruction) ≠ opcLd := by
  have halu : isAlu s.cpu.instruction → opclassOf (opcodeOf s.cpu.instruction) ≠ opcLd := by
    rintro (hc | hc) <;> rw [hc] <;> decide
  cases h with
  | loadStart h => exact ⟨h.accepted, by rw [h.cls]; decide⟩
  | load _ h => exact ⟨h.accepted, by rw [h.cls]; decide⟩
  | loadDone h => exact ⟨h.accepted, by rw [h.cls]; decide⟩
  | storeStart _ _ h => exact ⟨h.accepted, by rcases h.cls with hc | hc <;> rw [hc] <;> decide⟩
  | store _ _ _ h => exact ⟨h.accepted, by rcases h.cls with hc | hc <;> rw [hc] <;> decide⟩
  | storeDone _ _ h => exact ⟨h.accepted, by rcases h.cls with hc | hc <;> rw [hc] <;> decide⟩
  | divStart _ h => exact ⟨h.accepted, halu h.cls⟩
  | divRun _ _ h => exact ⟨h.accepted, halu h.cls⟩
  | divZero _ h => exact ⟨h.accepted, halu h.cls⟩
  | divDone _ h => exact ⟨h.accepted, halu h.cls⟩
  | shiftStart _ h => exact ⟨h.accepted, halu h.cls⟩
  | shiftLoaded _ h => exact ⟨h.accepted, halu h.cls⟩
  | shiftDone _ h => exact ⟨h.accepted, halu h.cls⟩
  | call h => exact ⟨h.accepted, by rw [h.op]; decide⟩

theorem holds (h : Phase m s st hi lo) (hst : st ≠ .stopped) : Holds m s.cpu := by
  cases st with
  | stopped => exact absurd rfl hst
  | busy => exact h.busy.1.holds
  | fetch => cases h with | fetch rest => exact rest.holds
  | delay => cases h with | delay rest => exact rest.holds
  | decode => cases h with | decode rest => exact rest.holds

theorem stopped_inv (h : Phase m s .stopped hi lo) : Stopped m s := by
  cases h with | stopped h => exact h

theorem rest_of_decode (h : Phase m s .decode hi lo) : Rest m s := by
  cases h with | decode rest => exact rest

theorem halt_iff (h : Phase m s st hi lo) : s.cpu.halt = true ↔ st = .stopped := by
  constructor
  · intro hh
    by_contra hst
    rw [(h.holds hst).halt] at hh
    cases hh
  · rintro rfl
    exact h.stopped_inv.halt

/-- The state register shows the stage. -/
theorem stateNext (h : Phase m s st hi lo) :
    match st with
    | .fetch => s.cpu.stateNext = .opFetch
    | .delay => s.cpu.stateNext = .opFetchDelay
    | .decode => s.cpu.stateNext = .decode
    | .busy => s.cpu.stateNext ≠ .opFetch ∧ s.cpu.stateNext ≠ .opFetchDelay
    | .stopped => True := by
  cases h with
  | stopped => trivial
  | fetch _ hs => exact hs
  | delay _ hs => exact hs
  | decode _ hs => exact hs
  | loadStart _ hs => simp [hs]
  | load _ _ hs => simp [hs]
  | loadDone _ hs => simp [hs]
  | storeStart _ _ _ hs => simp [hs]
  | store _ _ _ _ hs => simp [hs]
  | storeDone _ _ _ hs => simp [hs]
  | divStart _ _ hs => simp [hs]
  | divRun _ _ _ hs => simp [hs]
  | divZero _ _ hs => simp [hs]
  | divDone _ _ hs => simp [hs]
  | shiftStart _ h => simp [h.state]
  | shiftLoaded _ h => simp [h.state]
  | shiftDone _ h => simp [h.state]
  | call h => simp [h.state]

theorem fetch_iff (h : Phase m s st hi lo) (hst : st ≠ .stopped) :
    s.cpu.stateNext = .opFetch ↔ st = .fetch := by
  have hs := h.stateNext
  cases st with
  | stopped => exact absurd rfl hst
  | fetch => simp [hs]
  | delay => simp [hs]
  | decode => simp [hs]
  | busy => simp [hs.1]

theorem delay_iff (h : Phase m s st hi lo) (hst : st ≠ .stopped) :
    s.cpu.stateNext = .opFetchDelay ↔ st = .delay := by
  have hs := h.stateNext
  cases st with
  | stopped => exact absurd rfl hst
  | fetch => simp [hs]
  | delay => simp [hs]
  | decode => simp [hs]
  | busy => simp [hs.2]

/-- Where the next fetch will go. -/
theorem ipNext (h : Phase m s st hi lo) :
    match st with
    | .fetch => s.cpu.ipNext = m.ip
    | .stopped => True
    | _ => OnWord m s.cpu := by
  cases st with
  | fetch => cases h with | fetch _ _ hip => exact hip
  | delay => cases h with | delay _ _ _ hon => exact hon
  | decode => cases h with | decode _ _ hon => exact hon
  | busy => exact h.busy.1.onWord
  | stopped => trivial

theorem low (h : Phase m s st hi lo) : lo ≤ 10 := by
  cases h with
  | load j _ _ _ _ _ ram => exact ram.le
  | store ww _ j h _ _ _ ram =>
      have hb := ram.bound
      have hw := h.width
      omega
  | _ => omega

end Phase

end VeBpf
