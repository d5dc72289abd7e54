import NibbleMachine.Instruction.Opcode

/-!
Why a line of source, or a list of operands, is not an instruction, and how each cause is worded.
-/

namespace NibbleMachine

/-- What can be wrong with an instruction. -/
inductive Cause where
  /-- the line does not start with a name -/
  | noMnemonic (line : Text)
  /-- no instruction has this name -/
  | unknownMnemonic (name : Text)
  /-- the text after the name does not have the instruction's shape -/
  | unreadable (op : Opcode) (operands : Text)
  /-- an operation was asked for with so many operands and takes another number -/
  | operandCount (op : Opcode) (given : Nat)
  /-- a word was asked for and the number of operands is not the instruction's -/
  | incomplete (op : Opcode)
  /-- a register's number does not fit a field -/
  | wideRegister (op : Opcode) (register : Operand)
  /-- an immediate does not fit the fields after the registers -/
  | wideImmediate (op : Opcode) (immediate : Operand)
  /-- an instruction's number does not fit the top field of a word -/
  | wideCode (op : Opcode)
  /-- an instruction and its operands make a number that does not fit a word -/
  | wideWord (op : Opcode)
  /-- a number has more hexadecimal digits than asked for -/
  | wideHex (value digits : UInt64)
  /-- no operands of so many registers are read -/
  | noReader (registers : UInt32)
  deriving DecidableEq, Repr

namespace Cause

/-- The families that causes fall into. -/
inductive Kind where
  | naming
  | unknown
  | operands
  | encoding
  | range
  deriving DecidableEq, Repr

/-- The family of a cause. -/
def kind : Cause → Kind
  | .noMnemonic _ => .naming
  | .unknownMnemonic _ => .unknown
  | .unreadable .. | .operandCount .. => .operands
  | .incomplete _ | .wideRegister .. | .wideImmediate .. | .wideCode _ | .wideWord _
  | .wideHex .. => .encoding
  | .noReader _ => .range

open Text

/-- The wording of a cause. -/
def detail : Cause → Text
  | .noMnemonic line => utf8 "No se pudo leer el nombre de instrucción en: " ++ line
  | .unknownMnemonic name => utf8 "Instrucción desconocida: " ++ name
  | .unreadable op operands =>
    utf8 "No se pudieron parsear los argumentos de \"" ++ op.mnemonic ++ utf8 "\": \"" ++ operands
      ++ utf8 "\" (esperado: " ++ op.shape.pattern ++ utf8 ")"
  | .operandCount op given =>
    utf8 "Cantidad de operandos inválida para " ++ op.mnemonic ++ utf8 ": " ++ decimal given
      ++ utf8 " (esperado " ++ decimal op.shape.count.toNat ++ utf8 ")"
  | .incomplete op => utf8 "Operandos incompletos para " ++ op.mnemonic
  | .wideRegister op register =>
    utf8 "Registro R" ++ decimal register.toNat ++ utf8 " no entra en " ++ decimal fieldBits
      ++ utf8 " bits (" ++ op.mnemonic ++ utf8 ")"
  | .wideImmediate op immediate =>
    utf8 "Inmediato " ++ decimal immediate.toNat ++ utf8 " no entra en "
      ++ decimal (immediateWidth op.shape.registers).toNat ++ utf8 " bits (" ++ op.mnemonic
      ++ utf8 ")"
  | .wideCode op => utf8 "Número de instrucción inválido: " ++ decimal op.code
  | .wideWord op =>
    utf8 "Palabra de " ++ op.mnemonic ++ utf8 " excede " ++ decimal wordBits ++ utf8 " bits"
  | .wideHex value digits =>
    utf8 "No se puede convertir " ++ decimal value.toNat
      ++ utf8 " a HEX: es demasiado grande para " ++ decimal digits.toNat ++ utf8 " dígitos"
  | .noReader registers =>
    utf8 "Forma de operandos fuera de rango: " ++ decimal registers.toNat ++ utf8 " registros"

end Cause

/-- The shape that operands are read by in place of `s`: the standard one in its slot. -/
def Shape.reader (s : Shape) : Except Cause Shape :=
  match s.standard? with
  | some r => .ok r
  | none => .error (.noReader s.registers)

end NibbleMachine
