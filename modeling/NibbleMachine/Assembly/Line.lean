import NibbleMachine.Instruction.Word

/-!
Reading one line of source: a comment is dropped, blanks around what is left do not count, and the
rest is a name followed by operands. A line with nothing on it holds no instruction.
-/

namespace NibbleMachine

open Text

/-- Reads the instruction called `name` with the operand text `operands`. -/
def readInstruction (name operands : Text) : Except Cause Instruction :=
  match Opcode.find? name with
  | none => .error (.unknownMnemonic name)
  | some op => do
    let reader ← op.shape.reader
    match reader.read operands with
    | none => .error (.unreadable op operands)
    | some args => Instruction.assemble op args

/-- The instruction on a line of source, if the line holds one. -/
def readLine (raw : Text) : Except Cause (Option Instruction) :=
  let line := trim (dropComment raw)
  let name := line.takeWhile isAlnum
  if line.isEmpty then .ok none
  else if name.isEmpty then .error (.noMnemonic line)
  else some <$> readInstruction name (trim (line.dropWhile isAlnum))

end NibbleMachine
