import NibbleMachine.Failure
import NibbleMachine.Machine.Exec

/-!
A session: a program, the machine it runs on and how far it has come. A session is over when a
`halt` was carried out or the program counter has left the program.

`step` carries out one instruction, `run` all of them as long as an allowance of steps lasts.
-/

namespace NibbleMachine

/-- A program at work. -/
structure Session where
  program : Program := #[]
  machine : Machine := {}
  steps : UInt64 := 0
  halted : Bool := false
  deriving DecidableEq, Repr

/-- What a piece of work left: the session, a result or what ended it, what was printed, and the
    lines of its input that it has not read. -/
structure Outcome (α : Type) where
  session : Session
  result : Except Failure α
  stdout : Text := []
  stderr : Text := []
  unread : List Text := []

namespace Session

/-- A session at the start of a program. -/
def start (p : Program) : Session := { program := p }

/-- Whether there is nothing left to do. -/
def done (s : Session) : Bool := s.halted || s.program.size ≤ s.machine.pc

/-- The instruction that comes next. -/
def next? (s : Session) : Option Instruction :=
  if s.halted then none else s.program[s.machine.pc]?

/-- There is a next instruction exactly as long as the session is not over. -/
theorem next?_eq_none_iff (s : Session) : s.next? = none ↔ s.done = true := by
  cases h : s.halted <;> simp [next?, done, h]

/-! ### Loading -/

/-- Starts over with a program, if there is one; a failure changes nothing. -/
def load (p : Except Failure Program) : EStateM Failure Session Unit := fun s =>
  match p with
  | .ok p => .ok () (start p)
  | .error f => .error f s

/-- Loads a source text. -/
def loadSource (source : Text) : EStateM Failure Session Unit :=
  load (match assemble source with
    | .ok p => .ok p
    | .error r => .error (.rejected r))

/-- Loads a source file. -/
def loadFile (files : Files) (path : Text) : EStateM Failure Session Unit :=
  load (assembleFile files path)

/-! ### Running -/

/-- Carries out the next instruction, and tells whether there was one. The program counter moves on
    before the instruction is carried out; clock and step count only after it. -/
def step : EStateM Fault Session Bool := fun s =>
  match s.next? with
  | none => .ok false s
  | some i =>
    let ⟨program, machine, steps, halted⟩ := s
    match i.operation.exec (machine.setPc (machine.pc + 1)) with
    | .ok signal m => .ok true ⟨program, m.tick 1, steps + 1, halted || signal == .halt⟩
    | .error f m => .error f ⟨program, m, steps, halted⟩

/-- Runs to the end, or until `left` more steps are made. -/
def runSteps (limit : UInt64) : (left : Nat) → Session → EStateM.Result Failure Session Unit
  | 0, s => if s.done then .ok () s else .error (.stepLimit limit s.machine.pc) s
  | left + 1, s =>
    if s.done then .ok () s
    else match s.step with
      | .ok _ s => runSteps limit left s
      | .error f s => .error (.fault f) s

/-- The allowance of steps of a run, if none is given, and of a dialogue. -/
def stepLimit : UInt64 := 100000

open Text

/-- What is noted at the start of a run. -/
def runOpening (s : Session) : Text :=
  utf8 "[Runner] inicio: " ++ decimal s.program.size ++ utf8 " instrucciones\n"

/-- What is noted at the end of a run that came to its end. -/
def runClosing (s : Session) : Text :=
  utf8 "[Runner] fin tras " ++ decimal s.steps.toNat ++ utf8 " pasos ("
    ++ utf8 (if s.halted then "halt" else "fin de programa") ++ utf8 ")\n"

/-- Runs to the end. It is a failure if that takes more than `limit` steps. -/
def run (limit : UInt64) (s : Session) : Outcome Unit :=
  match s.runSteps limit limit.toNat with
  | .ok _ t => { session := t, result := .ok (), stderr := s.runOpening ++ t.runClosing }
  | .error f t => { session := t, result := .error f, stderr := s.runOpening }

end Session

end NibbleMachine
