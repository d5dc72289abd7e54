import NibbleMachine.Assembly.Program
import NibbleMachine.Report.Style

/-!
Reports: the things that are printed about machines and programs, each as a row of items. A report
puts the settings it changes back to the usual ones, so reports can follow each other in one style.
-/

namespace NibbleMachine

/-- Something to print. -/
inductive Report where
  /-- a register and its value -/
  | register (r : Nat) (v : Value)
  /-- a register's value before and after; nothing if it is the same -/
  | change (r : Nat) (before after : Value)
  /-- the cells that are not zero -/
  | memory (cells : Vector Value 256)
  /-- the output log -/
  | output (log : Array Value)
  /-- an instruction and its place in the program -/
  | instruction (index : Nat) (i : Instruction)
  /-- all instructions of a program -/
  | listing (p : Program)
  deriving DecidableEq, Repr

namespace Report

open Text

/-- A string to write. -/
def say (s : String) : Item := .text (utf8 s)

/-- A register in two columns, and the bits of its value if that is below zero. -/
def registerItems (r : Nat) (v : Value) : List Item :=
  [say "R", .width 2, .align .left, .number r, .align .right, say " = ", .value v]
    ++ if v < 0 then
      [say " (0x", .radix .hexadecimal, .number v.toUInt64.toNat, .radix .decimal, say ")"]
    else []

/-- The line of a register that changed. -/
def changeItems (r : Nat) (before after : Value) : List Item :=
  if before = after then []
  else [say "  R", .number r, say ": ", .value before, say " -> ", .value after, say "\n"]

/-- The line of a cell: its address in two hexadecimal digits, and its value. -/
def cellItems (addr : Nat) (v : Value) : List Item :=
  [say "  [0x", .radix .hexadecimal, .capitals true, .width 2, .fill 48, .number addr,
    .radix .decimal, .capitals false, .fill space, say "] = ", .value v, say "\n"]

/-- A line for each cell that is not zero. -/
def memoryItems (cells : Vector Value 256) : List Item :=
  let rows := cells.toList.zipIdx.filter (·.1 ≠ 0)
  if rows.isEmpty then [say "  (vacía)\n"]
  else rows.flatMap fun (v, addr) => cellItems addr v

/-- A line for each time that the log reaches. -/
def outputItems (log : Array Value) : List Item :=
  if log.isEmpty then [say "  (sin salida)\n"]
  else log.toList.zipIdx.flatMap fun (v, t) =>
    [say "  t=", .number t, say ": ", .value v, say "\n"]

/-- An operand after a space; the first ones are registers. -/
def operandItems (registers : Nat) (a : Operand) (i : Nat) : List Item :=
  [.text [space]] ++ (if i < registers then [.text [Shape.registerMark]] else [])
    ++ [.number a.toNat]

/-- An instruction as a line of source: its name and its operands, a space before each. -/
def sourceItems (i : Instruction) : List Item :=
  .text i.op.mnemonic
    :: i.args.zipIdx.flatMap fun (a, j) => operandItems i.op.shape.registers.toNat a j

/-- The line of an instruction: its place in four columns, its digits, and its source. -/
def instructionItems (index : Nat) (i : Instruction) : List Item :=
  [.width 4, .number index, say "  ", .text i.hex, say "  "] ++ sourceItems i ++ [say "\n"]

/-- What a report writes. -/
def items : Report → List Item
  | .register r v => registerItems r v
  | .change r before after => changeItems r before after
  | .memory cells => memoryItems cells
  | .output log => outputItems log
  | .instruction index i => instructionItems index i
  | .listing p => p.toList.zipIdx.flatMap fun (i, index) => instructionItems index i

/-- The settings after a report in a given style, and the text that it adds. -/
def print (s : Style) (r : Report) : Style × Text := s.write r.items

/-- A report on its own, in the usual style. -/
def text (r : Report) : Text := (r.print {}).2

/-- The texts of reports that follow each other in one style. -/
def printAll (s : Style) : List Report → List Text
  | [] => []
  | r :: rs =>
    let (s, t) := r.print s
    t :: printAll s rs

end Report

end NibbleMachine
