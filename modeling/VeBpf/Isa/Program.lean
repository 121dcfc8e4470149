import VeBpf.Core.Trace
import VeBpf.Isa.Machine

/-!
# Running a program memory

`Machine.next` is the architecture: the word at the instruction pointer, one after
the other. `CoreMachine` is what the core does instead. Its fetch stage has a word
in `instruction` before it has the word it wants, and the register checks look at
that one too; so a stale word with a register number that does not exist is taken
for the next word.
-/

namespace VeBpf

/-- The contents of the program memory. -/
abbrev Program := BitVec 9 → BitVec 64

/-- The word names a register that does not exist. -/
def badRegisters (w : BitVec 64) : Bool :=
  decide (maxRegs ≤ (srcOf w).toNat) || decide (maxRegs ≤ (dstOf w).toNat)

namespace Machine

theorem rejects_eq_badRegisters {m : Machine} (hu : m.upper = none) (w : BitVec 64) :
    m.rejects w = badRegisters w := by
  unfold rejects badRegisters
  rw [hu]

/-- The word at the instruction pointer; the program memory sees its low nine bits. -/
def wordAt (m : Machine) (pm : Program) : BitVec 64 := pm (m.ip.setWidth 9)

/-- The word after it. -/
def wordAfter (m : Machine) (pm : Program) : BitVec 64 := pm ((m.ip + 1).setWidth 9)

/-- One architectural step. -/
def isaNext (pm : Program) (m : Machine) : Machine := m.exec (m.wordAt pm)

/-- The instruction that this state executes, if it executes one. The second slot of an `LDDW`
belongs to the instruction before it. -/
def eventOf (m : Machine) (w : BitVec 64) : List Execution :=
  if m.halt || m.upper.isSome || m.rejects w then [] else [⟨m.ip, w, m.regs, m.mem⟩]

end Machine

/-- The machine with the words its fetch stage has passed over. -/
structure CoreMachine where
  machine : Machine
  stale : List (BitVec 64)

namespace CoreMachine

/-- The word that is acted on: the first stale one that the checks refuse, or the right one. -/
def word (pm : Program) (c : CoreMachine) : BitVec 64 :=
  (c.stale.find? c.machine.rejects).getD (c.machine.wordAt pm)

/-- One step of the core. The word after the current one is in the fetch stage whether it is
wanted or not. -/
def next (pm : Program) (c : CoreMachine) : CoreMachine where
  machine := c.machine.exec (c.word pm)
  stale := [c.machine.wordAfter pm]

/-- The instruction that this state executes, if it executes one. -/
def event (pm : Program) (c : CoreMachine) : List Execution :=
  c.machine.eventOf (c.word pm)

/-- A step that also writes down what it executes. -/
def logNext (pm : Program) (x : CoreMachine × List Execution) :
    CoreMachine × List Execution :=
  (x.1.next pm, x.2 ++ x.1.event pm)

end CoreMachine

end VeBpf
