import NibbleMachine.Instruction.Operation

/-!
Words: the 16-bit form of an instruction. The top field holds the instruction's number, registers
fill the operand fields from the left, and an immediate takes the low end of what remains. A word
is also written as four hexadecimal digits. `decode?` reads a word back.
-/

namespace NibbleMachine

/-- An instruction in 16 bits. -/
abbrev Word := UInt16

namespace Word

/-! ### Encoding -/

/-- The registers in their fields, of which the first is operand field `i`, as one number. -/
def packRegisters (op : Opcode) : (i : Nat) → List Operand → Except Cause Nat
  | _, [] => .ok 0
  | i, r :: rs =>
    if r.toNat < 1 <<< fieldBits then do
      let rest ← packRegisters op (i + 1) rs
      return r.toNat <<< (fieldBits * (operandFields - 1 - i)) + rest
    else .error (.wideRegister op r)

/-- The immediate at the low end of a word: the last operand, if the instruction takes one. -/
def packImmediate (op : Opcode) (args : List Operand) : Except Cause Nat :=
  if op.shape.immediate then
    let imm := args.getLastD 0
    if imm.toNat < 1 <<< (immediateWidth op.shape.registers).toNat then .ok imm.toNat
    else .error (.wideImmediate op imm)
  else .ok 0

/-- The word of an instruction with its operands. -/
def encode (op : Opcode) (args : List Operand) : Except Cause Word :=
  if 1 <<< fieldBits ≤ op.code then .error (.wideCode op)
  else if args.length ≠ op.shape.count.toNat then .error (.incomplete op)
  else do
    let registers ← packRegisters op 0 (args.take op.shape.registers.toNat)
    let immediate ← packImmediate op args
    let number := op.code <<< (fieldBits * operandFields) + registers + immediate
    if 1 <<< wordBits ≤ number then .error (.wideWord op) else return number.toUInt16

/-! ### Decoding -/

/-- The number in the top field of a word. -/
def topField (w : Word) : Nat := w.toNat >>> (fieldBits * operandFields)

/-- The number in operand field `i` of a word. -/
def operandField (w : Word) (i : Nat) : Nat :=
  w.toNat >>> (fieldBits * (operandFields - 1 - i)) % 1 <<< fieldBits

/-- The operands that a word holds for an instruction. -/
def operands (op : Opcode) (w : Word) : List Operand :=
  (List.range op.shape.registers.toNat).map (fun i => UInt32.ofNat (w.operandField i))
    ++ if op.shape.immediate then
      [UInt32.ofNat (w.toNat % 1 <<< (immediateWidth op.shape.registers).toNat)] else []

/-- The bits at the low end of a word that an instruction has no use for. -/
def spareBits (op : Opcode) : Nat :=
  if op.shape.immediate then 0 else (immediateWidth op.shape.registers).toNat

/-- The instruction and operands of a word. There are none if the top field is no instruction's
    number, or if a bit is set that the instruction has no use for. -/
def decode? (w : Word) : Option (Opcode × List Operand) := do
  let op ← Opcode.ofCode? w.topField
  if w.toNat % 1 <<< spareBits op = 0 then some (op, operands op w) else none

end Word

namespace Text

/-- The width that a number of digits stands for: its low 32 bits as a signed number, and no width
    at all if that is below zero. -/
def padding (digits : UInt64) : Nat := digits.toUInt32.toInt32.toInt.toNat

/-- A number in capital hexadecimal digits, filled up with zeros on the left. Fewer than sixteen
    digits must be enough for the number; from sixteen on they always are. -/
def hex (value digits : UInt64) : Except Cause Text :=
  if digits < 16 ∧ 1 <<< (fieldBits * digits.toNat) ≤ value.toNat then
    .error (.wideHex value digits)
  else .ok ((numeral .hexadecimal true value.toNat).leftpad (padding digits) 48)

end Text

/-- An instruction as it stands in a program, with its word and the digits of that word. -/
structure Instruction where
  op : Opcode
  args : List Operand
  operation : Operation
  word : Word := 0
  hex : Text := []
  deriving DecidableEq, Repr

namespace Instruction

/-- An instruction put together from its parts, with the digits that are given and without a
    word. -/
def ofParts (op : Opcode) (args : List Operand) (hex : Text) : Except Cause Instruction := do
  let operation ← Operation.ofArgs op args
  return { op, args, operation, hex }

/-- The instruction with these operands, encoded. -/
def assemble (op : Opcode) (args : List Operand) : Except Cause Instruction := do
  let word ← Word.encode op args
  let hex ← Text.hex word.toUInt64 4
  let operation ← Operation.ofArgs op args
  return { op, args, operation, word, hex }

end Instruction

end NibbleMachine
