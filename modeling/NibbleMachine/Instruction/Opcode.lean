import NibbleMachine.Instruction.Shape

/-!
The eleven instructions, each with its mnemonic, its number in the top field of a word and the
shape of its operands.
-/

namespace NibbleMachine

/-- The instructions, in the order of their table.

    * `mov1 Rn a`: register `n` takes cell `a`
    * `mov2 Rn a`: cell `a` takes register `n`
    * `mov3 Rn Rm`: the cell that register `n` points to takes register `m`
    * `mov4 Rn i`: cell `n` takes `i`; no register is touched
    * `add Rd Ra Rb`, `subt Rd Ra Rb`, `mul Rd Ra Rb`: register `d` takes the result
    * `jz Rn t`: go on at `t` if register `n` is not zero
    * `halt`: stop
    * `load Rd Rs`: register `d` takes the cell that register `s` points to
    * `readm i`: the output log takes `i` at the current time -/
inductive Opcode where
  | mov1 | mov2 | mov3 | mov4 | add | subt | jz | halt | mul | load | readm
  deriving DecidableEq, Repr

namespace Opcode

open Text

/-- All instructions, in table order. -/
def all : List Opcode := [mov1, mov2, mov3, mov4, add, subt, jz, halt, mul, load, readm]

/-- The place of an instruction in the table. -/
def index : Opcode → Nat
  | mov1 => 0 | mov2 => 1 | mov3 => 2 | mov4 => 3 | add => 4 | subt => 5
  | jz => 6 | halt => 7 | mul => 8 | load => 9 | readm => 10

/-- The name of an instruction in a source text. -/
def mnemonic : Opcode → Text
  | mov1 => utf8 "mov1" | mov2 => utf8 "mov2" | mov3 => utf8 "mov3" | mov4 => utf8 "mov4"
  | add => utf8 "add" | subt => utf8 "subt" | jz => utf8 "jz" | halt => utf8 "halt"
  | mul => utf8 "mul" | load => utf8 "load" | readm => utf8 "readm"

/-- The number of an instruction in the top field of its word. -/
def code : Opcode → Nat
  | mov1 => 0 | mov2 => 1 | mov3 => 2 | mov4 => 3 | add => 4 | subt => 5
  | jz => 6 | halt => 15 | mul => 8 | load => 10 | readm => 7

/-- The operands an instruction takes. -/
def shape : Opcode → Shape
  | mov1 | mov2 | mov4 | jz => ⟨1, true⟩
  | mov3 | load => ⟨2, false⟩
  | add | subt | mul => ⟨3, false⟩
  | halt => ⟨0, false⟩
  | readm => ⟨0, true⟩

/-- The instruction of a given name; capitals count. -/
def find? (name : Text) : Option Opcode := all.find? (·.mnemonic == name)

/-- The instruction of a given number. -/
def ofCode? (n : Nat) : Option Opcode := all.find? (·.code == n)

/-- What the table promises: each instruction stands at its index, numbers fit the opcode field,
    registers fit the operand fields, and no two instructions share a name or a number. -/
def tableValid : Bool :=
  all.map index == List.range all.length
    && all.all (fun op => op.code < 1 <<< fieldBits && op.shape.registers.toNat ≤ operandFields
      && !op.mnemonic.isEmpty)
    && decide (all.map code).Nodup && decide (all.map mnemonic).Nodup

theorem tableValid_eq : tableValid = true := by decide

end Opcode

end NibbleMachine
