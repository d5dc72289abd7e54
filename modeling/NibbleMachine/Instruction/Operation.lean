import NibbleMachine.Instruction.Cause

/-!
Operations: an instruction together with its operands, each in its role. Register numbers,
addresses and jump targets are natural numbers of any size here; it is the machine that refuses the
ones it does not have.
-/

namespace NibbleMachine

/-- What registers, memory cells and the output log hold: 64-bit two's complement numbers. -/
abbrev Value := Int64

/-- An instruction with its operands. -/
inductive Operation where
  | mov1 (rn addr : Nat)
  | mov2 (rn addr : Nat)
  | mov3 (rn rm : Nat)
  | mov4 (addr : Nat) (imm : Value)
  | add (rd ra rb : Nat)
  | subt (rd ra rb : Nat)
  | jz (rn target : Nat)
  | halt
  | mul (rd ra rb : Nat)
  | load (rd rs : Nat)
  | readm (imm : Value)
  deriving DecidableEq, Repr

namespace Operation

/-- An operand as a stored value. -/
def value (a : Operand) : Value := Int64.ofNat a.toNat

/-- The operation of an instruction with the operand `arg k` at place `k`. -/
def ofArg (op : Opcode) (arg : Nat → Operand) : Operation :=
  match op with
  | .mov1 => .mov1 (arg 0).toNat (arg 1).toNat
  | .mov2 => .mov2 (arg 0).toNat (arg 1).toNat
  | .mov3 => .mov3 (arg 0).toNat (arg 1).toNat
  | .mov4 => .mov4 (arg 0).toNat (value (arg 1))
  | .add => .add (arg 0).toNat (arg 1).toNat (arg 2).toNat
  | .subt => .subt (arg 0).toNat (arg 1).toNat (arg 2).toNat
  | .jz => .jz (arg 0).toNat (arg 1).toNat
  | .halt => .halt
  | .mul => .mul (arg 0).toNat (arg 1).toNat (arg 2).toNat
  | .load => .load (arg 0).toNat (arg 1).toNat
  | .readm => .readm (value (arg 0))

/-- The operation that an instruction and its operands stand for, if it takes so many. -/
def ofArgs (op : Opcode) (args : List Operand) : Except Cause Operation :=
  if args.length = op.shape.count.toNat then .ok (ofArg op (args.getD · 0))
  else .error (.operandCount op args.length)

end Operation

end NibbleMachine
