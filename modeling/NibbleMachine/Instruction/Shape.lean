import NibbleMachine.Text.Numeral

/-!
The shape of an instruction's operands: so many registers, then perhaps one immediate. A shape
reads an operand text into numbers, and describes itself by the pattern that error messages show.

A register is written `R` and a number, an immediate is a bare number, and spaces separate the
operands; nothing else may stand before, between or after them.
-/

namespace NibbleMachine

/-- The number an operand stands for: a register's index or an immediate. -/
abbrev Operand := UInt32

/-- How many registers an instruction takes, and whether an immediate follows them. -/
structure Shape where
  registers : UInt32
  immediate : Bool
  deriving DecidableEq, Repr

/-- The bits of one field of a word; a word has an opcode field and three operand fields. -/
def fieldBits : Nat := 4

/-- The operand fields of a word. -/
def operandFields : Nat := 3

/-- The bits of a word. -/
def wordBits : Nat := 16

/-- The bits left for an immediate after so many registers, counted in 32-bit words. -/
def immediateWidth (registers : UInt32) : UInt32 := 4 * (3 - registers)

namespace Shape

open Text

/-- The number of operands, counted in 32-bit words. -/
def count (s : Shape) : UInt32 := s.registers + if s.immediate then 1 else 0

/-- What operands of this shape look like, for error messages. -/
def pattern (s : Shape) : Text :=
  let parts := List.replicate s.registers.toNat (utf8 "R<n>")
    ++ if s.immediate then [utf8 "<imm>"] else []
  if parts.isEmpty then utf8 "(sin operandos)" else [space].intercalate parts

/-! ### Standard shapes -/

/-- The eight shapes that operand texts are read by: up to three registers, with and without an
    immediate. -/
def standardShapes : List Shape :=
  [⟨0, false⟩, ⟨0, true⟩, ⟨1, false⟩, ⟨1, true⟩, ⟨2, false⟩, ⟨2, true⟩, ⟨3, false⟩, ⟨3, true⟩]

/-- The place of a shape among the standard ones, counted in 32-bit words. -/
def slot (s : Shape) : UInt32 := s.registers * 2 + if s.immediate then 1 else 0

/-- The standard shape in this shape's place, if there is one. -/
def standard? (s : Shape) : Option Shape := standardShapes[s.slot.toNat]?

/-! ### Reading operands -/

/-- The byte `R`, which marks a register. -/
def registerMark : UInt8 := 82

/-- Reads on through a run of digits from the value so far. The value is kept in 64 bits and the
    reading stops as soon as it passes what an operand can hold. -/
def readDigits (value : UInt64) : Text → Option (Operand × Text)
  | [] => some (value.toUInt32, [])
  | b :: t =>
    if isDigit b then
      let value := value * 10 + (b - 48).toUInt64
      if value > 4294967295 then none else readDigits value t
    else some (value.toUInt32, b :: t)

/-- Reads a number: a run of at least one digit. -/
def readNumber (t : Text) : Option (Operand × Text) :=
  match t with
  | [] => none
  | b :: _ => if isDigit b then readDigits 0 t else none

/-- Skips a run of at least one space. -/
def skipSpaces : Text → Option Text
  | [] => none
  | b :: t => if b == space then some (t.dropWhile (· == space)) else none

/-- Skips the mark of a register. -/
def skipMark : Text → Option Text
  | [] => none
  | b :: t => if b == registerMark then some t else none

/-- Reads the next `n` operands, of which the first has the index `i`. -/
def readFrom (s : Shape) : (i n : Nat) → Text → Option (List Operand × Text)
  | _, 0, t => some ([], t)
  | i, n + 1, t => do
    let t ← if i = 0 then some t else skipSpaces t
    let t ← if i < s.registers.toNat then skipMark t else some t
    let (v, t) ← readNumber t
    let (vs, t) ← s.readFrom (i + 1) n t
    return (v :: vs, t)

/-- The operands that a text spells, if the whole of it has this shape. -/
def read (s : Shape) (t : Text) : Option (List Operand) :=
  match s.readFrom 0 s.count.toNat t with
  | some (vs, []) => some vs
  | _ => none

end Shape

end NibbleMachine
