import NibbleMachine.Assembly.Line

/-!
Assembling a whole source text. The instructions of its lines are the program, in order; the first
line that cannot be read ends the work, and its number goes into the complaint.
-/

namespace NibbleMachine

/-- A program is the row of its instructions. -/
abbrev Program := Array Instruction

/-- Why something was not assembled, and on which line, if a line is to blame. -/
structure Rejection where
  cause : Cause
  line : Option Nat := none
  deriving DecidableEq, Repr

namespace Rejection

open Text

/-- The complaint in full: the cause, after the number of its line if it has one. -/
def text (r : Rejection) : Text :=
  match r.line with
  | none => r.cause.detail
  | some n => utf8 "linea " ++ decimal n ++ utf8 ": " ++ r.cause.detail

/-- The complaint as it is shown. -/
def message (r : Rejection) : Text := untilNul r.text

end Rejection

/-- Blames a cause on line `n`; a missing reader is no fault of the line. -/
def Cause.onLine (c : Cause) (n : Nat) : Rejection :=
  { cause := c, line := if c.kind = .range then none else some n }

/-- The instructions on a row of lines of which the first has the number `n`. -/
def assembleLines (n : Nat) : List Text → Except Rejection (List Instruction)
  | [] => .ok []
  | l :: ls =>
    match readLine l with
    | .error c => .error (c.onLine n)
    | .ok found => (found.toList ++ ·) <$> assembleLines (n + 1) ls

/-- The program that a source text spells. -/
def assemble (source : Text) : Except Rejection Program :=
  List.toArray <$> assembleLines 1 (Text.lines source)

end NibbleMachine
