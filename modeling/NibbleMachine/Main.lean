import NibbleMachine.CommandLine

/-!
The program as it is called from a shell. What it prints is worked out by `CommandLine`, and a
dialogue is held by `Session.hold`; here files and lines are read and bytes are written.
-/

namespace NibbleMachine.CommandLine

/-- Writes bytes at once. -/
def emit (out : IO.FS.Stream) (t : Text) : IO Unit := do
  out.write (ByteArray.mk t.toArray)
  out.flush

/-- A source file, if it can be read. -/
def readSource (path : String) : IO (Option Text) := do
  try return some (← IO.FS.readBinFile path).toList
  catch _ => return none

/-- The next line of input without its newline, as the bytes that it has; nothing if the input has
    ended. -/
partial def nextLine (input : IO.FS.Stream) : IO (Option Text) := read []
where
  read (line : Text) : IO (Option Text) := do
    match (← input.read 1).toList with
    | [] => return if line.isEmpty then none else some line.reverse
    | b :: _ => if b = Text.newline then return some line.reverse else read (b :: line)

/-- The answers that whoever is at the other end gives: the lines of a stream, and none behind
    them. -/
structure Answers where
  input : IO.FS.Stream

/-- Goes through the answers, each of them read when it is its turn. -/
partial def Answers.each {β : Type} (answers : Answers) (b : β)
    (body : Option Text → β → IO (ForInStep β)) : IO β := do
  match ← body (← nextLine answers.input) b with
  | .done b => return b
  | .yield b => answers.each b body

instance : ForIn IO Answers (Option Text) := ⟨Answers.each⟩

/-- Shows a program and steps through it. -/
def stepHere (o : Options) (p : Program) : IO Exit := do
  let out ← IO.getStdout
  emit out (o.showing p)
  let tell (events : Array Event) := emit out (events.toList.flatMap Event.text)
  let progress ← (Session.start p).hold tell (Answers.mk (← IO.getStdin))
  let last := (Session.farewell progress).toList.flatMap Event.text
  return conclude [] (Session.settle last progress)

end NibbleMachine.CommandLine

open NibbleMachine NibbleMachine.CommandLine in
/-- The command line. -/
def main (args : List String) : IO UInt32 := do
  let texts := args.map Text.utf8
  let o := Options.ofArgs texts
  let source ← match String.fromUTF8? (ByteArray.mk o.path.toArray) with
    | some path => readSource path
    | none => pure none
  let files : Files := fun path => if path = o.path then source else none
  let exit ← match o.step, assembleFile files o.path with
    | true, .ok p => stepHere o p
    | _, _ => pure (call (Text.utf8 (← IO.appPath).toString) texts files [])
  emit (← IO.getStdout) exit.stdout
  emit (← IO.getStderr) exit.stderr
  return exit.code
