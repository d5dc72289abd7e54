import NibbleMachine.Instruction.Operation

/-!
The machine: sixteen registers, 256 memory cells, an output log, a program counter and a clock.

Whatever touches a register or a cell is an `Action`, which may end in a fault; the machine that an
action leaves behind is known either way.
-/

namespace NibbleMachine

/-- The state of a machine. A fresh one is zero throughout.

    The log has at place `t` what was put out at time `t`, and zero where nothing was; it reaches
    as far as the last time at which something was. -/
structure Machine where
  registers : Vector Value 16 := Vector.replicate 16 0
  memory : Vector Value 256 := Vector.replicate 256 0
  output : Array Value := #[]
  pc : Nat := 0
  time : UInt64 := 0
  deriving DecidableEq, Repr

/-- What can go wrong in a machine. -/
inductive Fault where
  /-- there is no register of this number -/
  | register (i : Nat)
  /-- there is no cell at this address -/
  | cell (addr : Nat)
  /-- a register was used as an address, and this value is none -/
  | indirect (v : Value)
  deriving DecidableEq, Repr

open Text in
/-- The wording of a fault. -/
def Fault.message : Fault → Text
  | .register i => utf8 "REG idx " ++ decimal i
  | .cell addr => utf8 "MEM addr " ++ decimal addr
  | .indirect v => utf8 "Dirección indirecta fuera de memoria: " ++ signed v.toInt

namespace Machine

/-- Something done to a machine, which gives a result or ends in a fault. -/
abbrev Action := EStateM Fault Machine

/-! ### Registers and memory -/

/-- Reads a register. -/
def register (i : Nat) : Action Value := fun m =>
  if h : i < 16 then .ok m.registers[i] m else .error (.register i) m

/-- Writes a register. -/
def setRegister (i : Nat) (v : Value) : Action Unit := fun m =>
  if h : i < 16 then .ok () { m with registers := m.registers.set i v } else .error (.register i) m

/-- Reads a memory cell. -/
def cell (addr : Nat) : Action Value := fun m =>
  if h : addr < 256 then .ok m.memory[addr] m else .error (.cell addr) m

/-- Writes a memory cell. -/
def setCell (addr : Nat) (v : Value) : Action Unit := fun m =>
  if h : addr < 256 then .ok () { m with memory := m.memory.set addr v } else .error (.cell addr) m

/-- A register's value as an address. -/
def address (v : Value) : Action Nat := fun m =>
  if 0 ≤ v ∧ v < 256 then .ok v.toInt.toNat m else .error (.indirect v) m

/-! ### Output, program counter and clock -/

/-- Puts a value out at the current time. A log that does not reach so far is first filled up with
    zeros. Its new size is counted like the time, in 64 bits: at the last time there is it comes out
    as zero, so that the log is emptied and the value lost. -/
def record (v : Value) (m : Machine) : Machine :=
  let now := m.time.toNat
  let size := (m.time + 1).toNat
  let log := if m.output.size ≤ now then (m.output.shrink size).rightpad size 0 else m.output
  { m with output := log.setIfInBounds now v }

/-- Makes `pc` the place of the next instruction. -/
def setPc (pc : Nat) (m : Machine) : Machine := { m with pc }

/-- Lets `n` units of time pass. -/
def tick (n : UInt64) (m : Machine) : Machine := { m with time := m.time + n }

end Machine

end NibbleMachine
