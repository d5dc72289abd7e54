import NibbleMachine.Assembly.Program
import NibbleMachine.Machine.Basic

/-!
Everything that can end a piece of work early, and how it is worded.
-/

namespace NibbleMachine

/-- What ended a piece of work early. -/
inductive Failure where
  /-- a source, or an instruction, was turned down -/
  | rejected (r : Rejection)
  /-- there is no source file of this name -/
  | noFile (path : Text)
  /-- the machine failed -/
  | fault (f : Fault)
  /-- a run used up its allowance of steps and had come to this place -/
  | stepLimit (limit : UInt64) (pc : Nat)
  deriving DecidableEq, Repr

namespace Failure

open Text

/-- The complaint in full. -/
def text : Failure → Text
  | .rejected r => r.text
  | .noFile path => utf8 "No se puede abrir ASM: " ++ path
  | .fault f => f.message
  | .stepLimit limit pc =>
    utf8 "Límite de pasos alcanzado (" ++ decimal limit.toNat ++ utf8 "), pc=" ++ decimal pc

/-- The complaint as it is shown. -/
def message (f : Failure) : Text := untilNul f.text

end Failure

/-- The source files there are, by name. -/
abbrev Files := Text → Option Text

/-- The program in a source file. The name of a file ends at its first zero byte. -/
def assembleFile (files : Files) (path : Text) : Except Failure Program :=
  match files (Text.untilNul path) with
  | none => .error (.noFile path)
  | some source =>
    match assemble source with
    | .error r => .error (.rejected r)
    | .ok p => .ok p

end NibbleMachine
