import VeBpf.Core.System

/-!
# What an observer sees of a run

An observer who watches `state_next` knows when an instruction begins:
`STATE_DECODE` right after `STATE_OP_FETCH_DELAY` is the first look at a new word,
any other `STATE_DECODE` goes on with the word already begun. One more bit of
memory tells the second slot of an `LDDW` from a new instruction.
-/

namespace VeBpf

/-- What the observer writes down when an instruction begins: its address and word, and the
registers and data bytes that it finds. -/
structure Execution where
  ip : BitVec 10
  word : BitVec 64
  regs : Regs
  mem : BitVec 11 → BitVec 8

/-- The instruction in `instruction`, on the registers and data bytes as they are. -/
def Sys.execution (s : Sys) : Execution :=
  ⟨s.cpu.ip, s.cpu.instruction, s.cpu.regs, s.dataMem.mem⟩

/-- What the observer remembers from one clock edge to the next. -/
structure Watch where
  /-- The state before was `STATE_OP_FETCH_DELAY`. -/
  delayed : Bool
  /-- The next new word is the second slot of an `LDDW`. -/
  upper : Bool

namespace Watch

def start : Watch := ⟨false, false⟩

/-- The core looks at a new word. -/
def fresh (k : Watch) (s : Sys) : Bool :=
  k.delayed && s.cpu.stateNext == .decode && !s.cpu.halt

/-- **The first `STATE_DECODE` cycle of an instruction.** -/
def firstDecode (k : Watch) (s : Sys) : Bool := k.fresh s && !k.upper

def step (k : Watch) (s : Sys) : Watch where
  delayed := s.cpu.stateNext == .opFetchDelay
  upper := if k.fresh s then !k.upper && opcodeOf s.cpu.instruction == ebpfOpLddw else k.upper

/-- The instruction that begins in this cycle and passes the checks. -/
def executes (k : Watch) (s : Sys) : List Execution :=
  if k.firstDecode s && !s.cpu.rejects then [s.execution] else []

end Watch

namespace Sys

/-- The observer's memory after `t` clock edges. -/
def watch (inp : Nat → Inputs) (s : Sys) : Nat → Watch
  | 0 => Watch.start
  | t + 1 => (watch inp s t).step (run inp s t)

/-- The instructions executed in the first `t` cycles, in order. -/
def executed (inp : Nat → Inputs) (s : Sys) : Nat → List Execution
  | 0 => []
  | t + 1 => executed inp s t ++ (watch inp s t).executes (run inp s t)

/-- At some time the run has executed exactly these instructions. -/
def Executes (inp : Nat → Inputs) (s : Sys) (l : List Execution) : Prop :=
  ∃ t, executed inp s t = l

/-- The run halts with this error flag, these registers and these data bytes. -/
def Ends (inp : Nat → Inputs) (s : Sys) (error : Bool) (regs : Regs)
    (mem : BitVec 11 → BitVec 8) : Prop :=
  ∃ t, (run inp s t).cpu.halt = true ∧ (run inp s t).cpu.error = error
    ∧ (run inp s t).cpu.regs = regs ∧ (run inp s t).dataMem.mem = mem

/-- **Two runs that are the same but for their timing**: they execute the same instructions, each
on the same registers and data bytes, and end the same way if they end. -/
structure SameRun (inp₁ : Nat → Inputs) (s₁ : Sys) (inp₂ : Nat → Inputs) (s₂ : Sys) : Prop where
  executes : ∀ l, Executes inp₁ s₁ l ↔ Executes inp₂ s₂ l
  ends : ∀ error regs mem, Ends inp₁ s₁ error regs mem ↔ Ends inp₂ s₂ error regs mem

end Sys

/-! ## Starting a run -/

/-- Reset is released and the program-load port is quiet. -/
structure Inputs.Running (i : Inputs) : Prop where
  resetN : i.resetNInt = true
  progReset : i.vebpfProgResetIn = false
  progWrite : i.vebpfProgWriteEnableIn = false

/-- A reset edge that sets the entry to `e` and leaves the program memory alone. -/
structure Inputs.Resets (e : BitVec 10) (i : Inputs) : Prop where
  resetN : i.resetNInt = false
  progReset : i.vebpfProgResetIn = false
  progWrite : i.vebpfProgWriteEnableIn = false
  entry : (if i.runNextSelectedRuleEn then i.ipNextRule else 0) = e

/-- The host lets go of the data memory for eleven edges in a row, again and again. -/
def Inputs.Yielding (inp : Nat → Inputs) : Prop :=
  ∀ t, ∃ u, t ≤ u ∧ ∀ v, u ≤ v → v < u + 11 → (inp v).csrCtl1 = false

theorem Inputs.still_running : (Inputs.still true).Running :=
  ⟨Inputs.still_resetNInt true, rfl, rfl⟩

theorem Inputs.selecting_resets (e : BitVec 10) : (Inputs.selecting e).Resets e :=
  ⟨Inputs.selecting_resetNInt e, rfl, rfl, rfl⟩

theorem Inputs.still_yielding : Inputs.Yielding fun _ => Inputs.still true :=
  fun t => ⟨t, Nat.le_refl t, fun _ _ _ => Inputs.still_csrCtl1 true⟩

namespace Sys

/-- `s` is what a reset of `n` edges with the entry held at `e` makes of `s₀`. -/
def HeldReset (e : BitVec 10) (n : Nat) (s₀ s : Sys) : Prop :=
  ∃ rst : Nat → Inputs, (∀ t, t < n → (rst t).Resets e) ∧ s = run rst s₀ n

/-- At the end of their resets two designs hold the same arguments, the same words behind the
call handler, and the same data bytes once the last one on its way has landed. -/
structure StartsAlike (inp₁ : Nat → Inputs) (s₁ : Sys) (inp₂ : Nat → Inputs) (s₂ : Sys) :
    Prop where
  args : s₁.cpu.regs = s₂.cpu.regs
  data : (s₁.step (inp₁ 0)).dataMem.mem = (s₂.step (inp₂ 0)).dataMem.mem
  store : s₁.callHandler.callHandlerMem = s₂.callHandler.callHandlerMem

end Sys

end VeBpf
