import NibbleMachine.Session.Dialogue

/-!
The command line: a source file is assembled and shown, as a listing or as bare words, and then, if
asked for, run or stepped through and its final state dumped. All of it is a function of the
arguments, the files there are and the standard input.
-/

namespace NibbleMachine.CommandLine

open Text

/-- What the arguments ask for. -/
structure Options where
  /-- show bare words in place of a listing -/
  hex : Bool := false
  /-- run the program -/
  run : Bool := false
  /-- step through the program; this wins over running it -/
  step : Bool := false
  /-- the source file -/
  path : Text := []
  deriving DecidableEq, Repr

namespace Options

/-- Takes account of one more argument. Whatever is no flag is the source file, and a later one
    takes the place of an earlier one. -/
def add (o : Options) (arg : Text) : Options :=
  if arg = utf8 "--hex" then { o with hex := true }
  else if arg = utf8 "--run" then { o with run := true }
  else if arg = utf8 "--step" ∨ arg = utf8 "-s" then { o with step := true }
  else { o with path := arg }

/-- The options that the arguments spell. An argument ends at its first zero byte. -/
def ofArgs (args : List Text) : Options := (args.map untilNul).foldl add {}

/-- How a program is shown. -/
def showing (o : Options) (p : Program) : Text :=
  if o.hex then p.toList.flatMap fun i => i.hex ++ [newline] else (Report.listing p).text

end Options

/-- What a call of the program leaves behind. -/
structure Exit where
  code : UInt32
  stdout : Text := []
  stderr : Text := []
  deriving DecidableEq, Repr

/-- How the program is called. -/
def usage (name : Text) : Text :=
  utf8 "Uso: " ++ name ++ utf8 " <archivo.asm> [--hex] [--run] [--step|-s]\n"

/-- The line that reports a failure; a source that was turned down is told apart from the rest. -/
def complaint (f : Failure) : Text :=
  let heading := match f with
    | .rejected r =>
      if r.cause.kind = .range then "[Main] Error: " else "[Main] Error de ensamblado: "
    | _ => "[Main] Error: "
  utf8 heading ++ f.message ++ [newline]

/-- The state in which a program has left its machine. -/
def finalDump (m : Machine) : Text := m.registersDump ++ m.memoryDump ++ m.outputDump

/-- The end of a call that has worked on a session and had printed a text before that. -/
def conclude (printed : Text) (o : Outcome Unit) : Exit :=
  match o.result with
  | .ok _ =>
    { code := 0, stdout := printed ++ o.stdout ++ finalDump o.session.machine, stderr := o.stderr }
  | .error f => { code := 1, stdout := printed ++ o.stdout, stderr := o.stderr ++ complaint f }

/-- What is done with a program once it is assembled. -/
def process (o : Options) (input : Text) (p : Program) : Exit :=
  if o.step then conclude (o.showing p) ((Session.start p).stepThrough input)
  else if o.run then conclude (o.showing p) ((Session.start p).run Session.stepLimit)
  else { code := 0, stdout := o.showing p }

/-- A call of the program by its name and arguments. -/
def call (name : Text) (args : List Text) (files : Files) (input : Text) : Exit :=
  let o := Options.ofArgs args
  if o.path.isEmpty then { code := 2, stderr := usage name }
  else match assembleFile files o.path with
    | .error f => { code := 1, stderr := complaint f }
    | .ok p => process o input p

end NibbleMachine.CommandLine
