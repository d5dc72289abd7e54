import NibbleMachine.Report.Dump
import NibbleMachine.Session.Basic

/-!
The dialogue: a session that is stepped through by hand. Before each step a line is read. It may
ask for the registers or the memory, let the rest run on its own, or leave; any other line makes
one step. What happens is a row of events, and the transcript is their texts. `converse` takes the
lines from a text, `hold` from whoever is at the other end.
-/

namespace NibbleMachine

/-- What a line of input asks for. -/
inductive Command where
  | step
  | carryOn
  | registers
  | memory
  | quit
  deriving DecidableEq, Repr

/-- The command on a line: a single letter, small or capital, or else a step. -/
def Command.ofLine (line : Text) : Command :=
  if line = [113] ∨ line = [81] then .quit
  else if line = [99] ∨ line = [67] then .carryOn
  else if line = [114] ∨ line = [82] then .registers
  else if line = [109] ∨ line = [77] then .memory
  else .step

/-- What a transcript is made of. -/
inductive Event where
  /-- the dialogue begins -/
  | opening
  /-- a line of input is asked for -/
  | prompt (steps : UInt64) (pc : Nat)
  /-- there is no more input -/
  | inputEnded
  /-- the dialogue is left by command -/
  | quit
  /-- the rest runs on its own -/
  | carryingOn
  /-- registers are asked for -/
  | registers (m : Machine)
  /-- memory and output are asked for -/
  | memory (m : Machine)
  /-- the instruction that is about to be carried out -/
  | upcoming (steps : UInt64) (pc : Nat) (i : Instruction)
  /-- no more steps are allowed -/
  | limitReached
  /-- a step was made: the registers before and after it, and where it has led -/
  | stepped (before after : Vector Value 16) (pc : Nat)
  /-- the dialogue ends -/
  | closing (steps : UInt64) (halted : Bool)
  deriving DecidableEq, Repr

namespace Event

open Text

/-- A line for each register that a step has changed, or one that says there is none. -/
def changesText (before after : Vector Value 16) : Text :=
  let changes := (before.toList.zip after.toList).zipIdx.flatMap fun ((b, a), r) =>
    (Report.change r b a).text
  if changes.isEmpty then utf8 "  (sin cambios en registros)\n" else changes

/-- What an event adds to the transcript. -/
def text : Event → Text
  | .opening =>
    utf8 "\n===================== STEPPING INTERACTIVO =====================\n"
      ++ utf8 "ENTER=step | c=continuar | r=regs | m=memoria | q=salir\n"
  | .prompt steps pc =>
    utf8 "\n[step " ++ decimal steps.toNat ++ utf8 " | pc=" ++ decimal pc ++ utf8 "] > "
  | .inputEnded => utf8 "\n[Stepping] stdin cerrado. Saliendo.\n"
  | .quit => utf8 "[Stepping] Salir.\n"
  | .carryingOn => utf8 "[Stepping] Continuación automática habilitada.\n"
  | .registers m => m.registersDump
  | .memory m => m.memoryDump ++ m.outputDump
  | .upcoming steps pc i =>
    utf8 "\n===== STEP " ++ decimal steps.toNat ++ utf8 " =====\n" ++ (Report.instruction pc i).text
  | .limitReached => utf8 "[Stepping] Límite de pasos alcanzado.\n"
  | .stepped before after pc =>
    changesText before after ++ utf8 "  pc=" ++ decimal pc ++ utf8 "\n"
  | .closing steps halted =>
    utf8 "\n[Stepping] Terminado (pasos=" ++ decimal steps.toNat ++ utf8 ", halt="
      ++ utf8 (if halted then "true" else "false") ++ utf8 ").\n"

end Event

/-- How far a dialogue has come. -/
inductive Progress where
  /-- it goes on with this session -/
  | going (s : Session)
  /-- it is over, and left this session -/
  | over (s : Session)
  /-- a fault has broken it off -/
  | broken (s : Session) (f : Fault)
  deriving DecidableEq, Repr

/-- A dialogue over the lines of an input. -/
structure Dialogue where
  /-- what has happened, in order -/
  log : Array Event
  progress : Progress
  /-- the lines that were not read -/
  unread : List Text
  deriving DecidableEq, Repr

namespace Session

/-- Announces the next instruction and carries it out, unless the limit of steps is reached. -/
def advance (s : Session) : List Event × Progress :=
  match s.next? with
  | none => ([], .over s)
  | some i =>
    let upcoming := Event.upcoming s.steps s.machine.pc i
    if stepLimit ≤ s.steps then ([upcoming, .limitReached], .over s)
    else
      let before := s.machine.registers
      match s.step with
      | .ok _ t => ([upcoming, .stepped before t.machine.registers t.machine.pc], .going t)
      | .error f t => ([upcoming], .broken t f)

/-- Steps on without asking until the session is over, a fault comes up or the limit of steps is
    reached. `left` is how many steps there are below the limit. -/
def carryOn : (left : Nat) → Session → Array Event → Array Event × Progress
  | left, s, log =>
    if s.done then (log, .over s)
    else match s.advance, left with
      | (events, .going s), left + 1 => carryOn left s (log ++ events)
      | (events, progress), _ => (log ++ events, progress)

/-- What comes of an answer to the prompt; there is none if the input has ended. -/
def answer (s : Session) : Option Text → Array Event × Progress
  | none => (#[.inputEnded], .over s)
  | some line =>
    match Command.ofLine line with
    | .quit => (#[.quit], .over s)
    | .carryOn => s.carryOn (stepLimit.toNat - s.steps.toNat) #[.carryingOn]
    | .registers => (#[.registers s.machine], .going s)
    | .memory => (#[.memory s.machine], .going s)
    | .step =>
      let (events, progress) := s.advance
      (events.toArray, progress)

/-- The prompt of a session. -/
def prompt (s : Session) : Event := .prompt s.steps s.machine.pc

/-- Reads answers from the lines of input until the dialogue is over. -/
def ask : List Text → Session → Array Event → Dialogue
  | lines, s, log =>
    if s.done then { log, progress := .over s, unread := lines }
    else match lines with
      | [] =>
        let (events, progress) := s.answer none
        { log := log.push s.prompt ++ events, progress, unread := [] }
      | line :: lines =>
        match s.answer (some line) with
        | (events, .going t) => ask lines t (log.push s.prompt ++ events)
        | (events, progress) => { log := log.push s.prompt ++ events, progress, unread := lines }

/-- The last word of a dialogue, unless a fault has broken it off. -/
def farewell : Progress → Array Event
  | .going s | .over s => #[.closing s.steps s.halted]
  | .broken .. => #[]

/-- What a dialogue comes to that has printed a text. -/
def settle (stdout : Text) : Progress → Outcome Unit
  | .going s | .over s => { session := s, result := .ok (), stdout }
  | .broken s f => { session := s, result := .error (.fault f), stdout }

/-- The dialogue over an input, from its first word to its last. -/
def converse (input : Text) (s : Session) : Dialogue :=
  let d := ask (Text.lines input) s #[.opening]
  { d with log := d.log ++ farewell d.progress }

/-- Steps through a session by the answers in a text. -/
def stepThrough (input : Text) (s : Session) : Outcome Unit :=
  let d := s.converse input
  { settle (d.log.toList.flatMap Event.text) d.progress with unread := d.unread }

/-! ### Dialogues as they go along -/

section

variable {m : Type → Type} {ρ : Type} [Monad m]

/-- Asks for a line, unless the session is over. -/
def await (tell : Array Event → m Unit) (s : Session) : m (ForInStep Progress) :=
  if s.done then return .done (.over s)
  else do
    tell #[s.prompt]
    return .yield (.going s)

/-- One turn: what comes of an answer is told, and the next line is asked for. -/
def turn (tell : Array Event → m Unit) (line : Option Text) : Progress → m (ForInStep Progress)
  | .going s => do
    let (events, progress) := s.answer line
    tell events
    match progress with
    | .going t => t.await tell
    | ended => return .done ended
  | ended => return .done ended

/-- The dialogue with whoever gives the answers, in any monad in which they can be gone through and
    events can be told. Everything is told before the next answer is taken. -/
def hold [ForIn m ρ (Option Text)] (tell : Array Event → m Unit) (answers : ρ) (s : Session) :
    m Progress := do
  tell #[.opening]
  match ← s.await tell with
  | .done progress => return progress
  | .yield progress => forIn answers progress (turn tell)

end

end Session

end NibbleMachine
