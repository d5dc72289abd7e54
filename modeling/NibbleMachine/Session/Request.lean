import NibbleMachine.Session.Dialogue

/-!
Requests: everything that can be asked of a machine or of a session, as data. A row of requests is
carried out in order; a request that fails does not keep the later ones from being tried.
-/

namespace NibbleMachine

/-- What can be asked of a machine. -/
inductive Machine.Request where
  | register (i : Nat)
  | setRegister (i : Nat) (v : Value)
  | cell (addr : Nat)
  | setCell (addr : Nat) (v : Value)
  | record (v : Value)
  | setPc (pc : Nat)
  | tick (n : UInt64)
  | reset
  | exec (op : Opcode) (args : List Operand)
  | execLine (line : Text)
  deriving DecidableEq, Repr

/-- What a request is answered with. -/
inductive Answer where
  | nothing
  | value (v : Value)
  | signal (s : Signal)
  | flag (b : Bool)
  | program (p : Program)
  deriving DecidableEq, Repr

namespace Machine

/-- An action of a machine as a piece of work. -/
def attempt {α : Type} (a : Action α) : EStateM Failure Machine α := a.adaptExcept .fault

/-- Turns an instruction down. -/
def reject {α : Type} (c : Cause) : EStateM Failure Machine α := throw (.rejected { cause := c })

/-- Carries out a request. -/
def perform : Request → EStateM Failure Machine Answer
  | .register i => .value <$> attempt (register i)
  | .setRegister i v => do
    attempt (setRegister i v)
    return .nothing
  | .cell addr => .value <$> attempt (cell addr)
  | .setCell addr v => do
    attempt (setCell addr v)
    return .nothing
  | .record v => do
    modify (record v)
    return .nothing
  | .setPc pc => do
    modify (setPc pc)
    return .nothing
  | .tick n => do
    modify (tick n)
    return .nothing
  | .reset => do
    set ({} : Machine)
    return .nothing
  | .exec op args =>
    match Operation.ofArgs op args with
    | .error c => reject c
    | .ok o => .signal <$> attempt o.exec
  | .execLine line =>
    match readLine line with
    | .error c => reject c
    | .ok none => return .nothing
    | .ok (some i) => .signal <$> attempt i.operation.exec

/-- The answers to a row of requests, each with the machine after it. -/
def performAll : List Request → Machine → List (Except Failure Answer × Machine)
  | [], _ => []
  | r :: rs, m =>
    match perform r m with
    | .ok a m => (.ok a, m) :: performAll rs m
    | .error f m => (.error f, m) :: performAll rs m

end Machine

/-- What can be asked of a session. -/
inductive Session.Request where
  | machine (r : Machine.Request)
  | loadSource (source : Text)
  | loadFile (path : Text)
  | loadParts (code : List (Opcode × List Operand × Text))
  | step
  | run (limit : UInt64)
  | stepThrough (input : Text)
  | dumpRegisters
  | dumpMemory
  | dumpOutput
  | program
  deriving DecidableEq, Repr

/-- The program with instructions put together from their parts. -/
def Program.ofParts (code : List (Opcode × List Operand × Text)) : Except Failure Program :=
  match code.mapM fun (op, args, hex) => Instruction.ofParts op args hex with
  | .ok is => .ok is.toArray
  | .error c => .error (.rejected { cause := c })

namespace Session

/-- A piece of work that prints nothing. -/
def quiet {α : Type} (f : α → Answer) : EStateM.Result Failure Session α → Outcome Answer
  | .ok a s => { session := s, result := .ok (f a) }
  | .error e s => { session := s, result := .error e }

/-- A piece of work that is answered with nothing but what it prints. -/
def mute (o : Outcome Unit) : Outcome Answer := { o with result := o.result.map fun _ => .nothing }

/-- A printed text. -/
def printing (s : Session) (stdout : Text) : Outcome Answer :=
  { session := s, result := .ok .nothing, stdout }

/-- Carries out a request of the machine that the session runs on. -/
def onMachine (r : Machine.Request) (s : Session) : Outcome Answer :=
  match Machine.perform r s.machine with
  | .ok a m => { session := { s with machine := m }, result := .ok a }
  | .error f m => { session := { s with machine := m }, result := .error f }

/-- Carries out a request. -/
def perform (files : Files) (r : Request) (s : Session) : Outcome Answer :=
  match r with
  | .machine r => s.onMachine r
  | .loadSource source => quiet (fun _ => .nothing) (loadSource source s)
  | .loadFile path => quiet (fun _ => .nothing) (loadFile files path s)
  | .loadParts code => quiet (fun _ => .nothing) (load (Program.ofParts code) s)
  | .step => quiet .flag (step.adaptExcept .fault s)
  | .run limit => mute (s.run limit)
  | .stepThrough input => mute (s.stepThrough input)
  | .dumpRegisters => s.printing s.machine.registersDump
  | .dumpMemory => s.printing s.machine.memoryDump
  | .dumpOutput => s.printing s.machine.outputDump
  | .program => { session := s, result := .ok (.program s.program) }

/-- What a row of requests comes to, one after the other. -/
def performAll (files : Files) : List Request → Session → List (Outcome Answer)
  | [], _ => []
  | r :: rs, s =>
    let o := s.perform files r
    o :: performAll files rs o.session

end Session

end NibbleMachine
