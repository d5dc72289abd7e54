import NibbleMachine.CommandLine
import NibbleMachine.Proofs.Decoding
import NibbleMachine.Proofs.Programs
import NibbleMachine.Proofs.Stepping

/-!
A processor that knows of a program nothing but its words.

At each step it fetches a word, takes the instruction from the top field and the operands from the
fields and low bits that the instruction's shape assigns to them, and carries the operation out. A
session carries out operations that were built beside the words and never looks at a word. Main
statement: on an assembled program the two go through the same states and fail at the same steps,
so programs with equal words, or with equal hexadecimal output, run alike.
-/

namespace NibbleMachine

/-! ### What a word asks for -/

namespace Word

/-- The operation of an instruction on the fields of a word. The register field of `mov4` is an
    address. -/
def operationOf (op : Opcode) (w : Word) : Operation :=
  let field := w.operandField
  let imm := w.immediate op
  match op with
  | .mov1 => .mov1 (field 0) imm
  | .mov2 => .mov2 (field 0) imm
  | .mov3 => .mov3 (field 0) (field 1)
  | .mov4 => .mov4 (field 0) (Int64.ofNat imm)
  | .add => .add (field 0) (field 1) (field 2)
  | .subt => .subt (field 0) (field 1) (field 2)
  | .jz => .jz (field 0) imm
  | .halt => .halt
  | .mul => .mul (field 0) (field 1) (field 2)
  | .load => .load (field 0) (field 1)
  | .readm => .readm (Int64.ofNat imm)

/-- The operation that a word asks for; there is none if its top field is no instruction's
    number. -/
def operation? (w : Word) : Option Operation :=
  (Opcode.ofCode? w.topField).map fun op => w.operationOf op

end Word

/-! ### The processor -/

/-- What can stop the processor: a word that is no instruction, or a fault of the machine. -/
inductive Trap where
  | illegal (w : Word)
  | fault (f : Fault)
  deriving DecidableEq, Repr

/-- A processor: the words of a program, the machine and whether it was halted. -/
structure Processor where
  words : List Word
  machine : Machine := {}
  halted : Bool := false
  deriving DecidableEq, Repr

namespace Processor

open Session (stateOf resultOf)

/-- Fetches a word, moves on, decodes the word and carries it out. -/
def step : EStateM Trap Processor Bool := fun c =>
  if c.halted then .ok false c
  else match c.words[c.machine.pc]? with
    | none => .ok false c
    | some w =>
      match w.operation? with
      | none => .error (.illegal w) c
      | some o =>
        match o.exec (c.machine.setPc (c.machine.pc + 1)) with
        | .ok signal m => .ok true { c with machine := m.tick 1, halted := signal == .halt }
        | .error f m => .error (.fault f) { c with machine := m }

/-- The processor after `k` steps, be it that some of them failed. -/
def after (k : Nat) (c : Processor) : Processor := (fun c => stateOf c.step)^[k] c

/-- What the next step of the processor tells. -/
def stepResult (c : Processor) : Except Trap Bool := resultOf c.step

/-- The processor that a session describes. -/
def ofSession (s : Session) : Processor :=
  { words := s.program.toList.map (·.word), machine := s.machine, halted := s.halted }

end Processor

/-! ### Words of instructions -/

namespace Word

/-- An operation that is built from the operands of a word is the one that the word asks for. -/
theorem ofArgs_operands (op : Opcode) (w : Word) :
    Operation.ofArgs op (operands op w) = .ok (w.operationOf op) := by
  have hfield := toNat_ofNat_operandField w
  have himm := toNat_ofNat_immediate op w
  refine Operation.ofArgs_eq_ok_iff.2 ⟨length_operands op w, ?_⟩
  rw [operands_eq]
  cases op <;>
    simp [Opcode.shape, fields, List.range_succ, Operation.ofArg, Operation.value, operationOf,
      hfield, himm]

end Word

/-- The word of an assembled instruction asks for its operation. -/
theorem Instruction.Assembled.operation?_word {i : Instruction} (h : i.Assembled) :
    i.word.operation? = some i.operation := by
  have hop : Operation.ofArgs i.op (Word.operands i.op i.word) = .ok i.operation := by
    rw [Word.operands_of_encode h.encode, h.operation]
  rw [Word.ofArgs_operands] at hop
  rw [Word.operation?, Word.topField_of_encode h.encode, Opcode.ofCode?_code, Option.map_some,
    Except.ok.inj hop]

/-! ### The simulation -/

namespace Processor

open Session (stateOf resultOf)

/-- The fetch of the processor is the word of the session's next instruction. -/
theorem fetch_ofSession {s : Session} (hhalted : s.halted = false) :
    (ofSession s).words[(ofSession s).machine.pc]? = s.next?.map (·.word) := by
  rw [Session.next?, if_neg (by simp [hhalted]), ofSession, List.getElem?_map,
    Array.getElem?_toList]

/-- One step of the processor is one step of the session. -/
theorem step_ofSession {s : Session} (hp : s.program.Assembled) :
    stateOf (ofSession s).step = ofSession s.afterStep ∧
      (ofSession s).stepResult = s.stepResult.mapError .fault := by
  rw [Session.afterStep, Session.stepResult, stepResult, step]
  cases hhalted : s.halted with
  | true =>
    have hnext : s.next? = none := by simp [Session.next?, hhalted]
    rw [Session.step_of_next?_eq_none hnext, if_pos (by simp [ofSession, hhalted])]
    exact ⟨rfl, rfl⟩
  | false =>
    rw [if_neg (by simp [ofSession, hhalted]), fetch_ofSession hhalted]
    cases hnext : s.next? with
    | none =>
      rw [Session.step_of_next?_eq_none hnext]
      exact ⟨rfl, rfl⟩
    | some i =>
      have hi : i.Assembled := hp i (Session.mem_program_of_next? hnext)
      rw [Session.step_of_next?_eq_some hnext]
      simp only [Option.map_some, hi.operation?_word]
      simp only [ofSession, hhalted, Bool.false_or]
      cases i.operation.exec (s.machine.setPc (s.machine.pc + 1)) with
      | ok signal m => exact ⟨rfl, rfl⟩
      | error f m => exact ⟨rfl, rfl⟩

/-- After any number of steps, the processor is the one that the session describes. -/
theorem after_ofSession : ∀ (k : Nat) {s : Session}, s.program.Assembled →
    (ofSession s).after k = ofSession (s.after k)
  | 0, _, _ => rfl
  | k + 1, s, hp => by
    have hp' : s.afterStep.program.Assembled := by rwa [Session.afterStep_program]
    have ih := after_ofSession k hp'
    rw [after, Function.iterate_succ_apply, (step_ofSession hp).1, Session.after_succ]
    exact ih

end Processor

/-! ### Programs by their words -/

/-- The words of a program. -/
def Program.words (p : Program) : List Word := p.toList.map (·.word)

/-- A program as `--hex` shows it: the digits of each word on a line of its own. -/
def Program.hexText (p : Program) : Text := CommandLine.Options.showing { hex := true } p

theorem newline_notMem_digits (w : Word) : Text.newline ∉ w.digits :=
  Word.notMem_digits (by decide) w

theorem hexText_eq {p : Program} (hp : p.Assembled) :
    p.hexText = p.words.flatMap fun w => w.digits ++ [Text.newline] := by
  rw [Program.words, List.flatMap_map]
  refine List.flatMap_congr fun i hi => ?_
  rw [(hp i hi).hex]

/-- Assembled programs have equal words exactly if they have equal hexadecimal output. -/
theorem words_eq_iff_hexText_eq {p q : Program} (hp : p.Assembled) (hq : q.Assembled) :
    p.words = q.words ↔ p.hexText = q.hexText := by
  rw [hexText_eq hp, hexText_eq hq]
  constructor
  · intro h
    rw [h]
  · intro h
    have hlines := congrArg Text.lines h
    rw [Text.lines_flatMap Word.digits fun w _ => newline_notMem_digits w,
      Text.lines_flatMap Word.digits fun w _ => newline_notMem_digits w] at hlines
    exact List.map_injective_iff.2 (fun _ _ => Word.digits_inj) hlines

/-- The instruction that a word is assembled from. -/
def Word.instruction? (w : Word) : Option Instruction :=
  (Opcode.ofCode? w.topField).bind fun op => (Instruction.assemble op (operands op w)).toOption

theorem Instruction.Assembled.instruction?_word {i : Instruction} (h : i.Assembled) :
    i.word.instruction? = some i := by
  rw [Word.instruction?, Word.topField_of_encode h.encode, Opcode.ofCode?_code, Option.bind_some,
    Word.operands_of_encode h.encode]
  rw [Instruction.Assembled] at h
  rw [h]
  rfl

/-- An assembled program can be read back from its words. -/
theorem eq_of_words_eq {p q : Program} (hp : p.Assembled) (hq : q.Assembled)
    (h : p.words = q.words) : p = q := by
  have hread : ∀ {r : Program}, r.Assembled →
      r.words.map Word.instruction? = r.toList.map some := by
    intro r hr
    rw [Program.words, List.map_map]
    exact List.map_congr_left fun i hi => (hr i hi).instruction?_word
  have hlist : p.toList.map some = q.toList.map some := by rw [← hread hp, ← hread hq, h]
  exact Array.toList_inj.1 (List.map_injective_iff.2 (fun _ _ => Option.some.inj) hlist)

/-- The words carry the whole meaning of a program. The processor on the words of an assembled
    program has the machine of the session after every number of steps, halts when it does, and its
    next step tells the same or fails with the same fault. Another program with the same words, or,
    what is the same, the same hexadecimal output, goes through the same sessions. -/
theorem words_determine_runs {source : Text} {p : Program} (h : assemble source = .ok p) :
    (∀ k, ((Processor.mk p.words {} false).after k).machine = ((Session.start p).after k).machine ∧
      ((Processor.mk p.words {} false).after k).halted = ((Session.start p).after k).halted ∧
      ((Processor.mk p.words {} false).after k).stepResult =
        ((Session.start p).after k).stepResult.mapError .fault) ∧
    ∀ source' q, assemble source' = .ok q →
      (p.words = q.words ↔ p.hexText = q.hexText) ∧
      (p.hexText = q.hexText → ∀ k, (Session.start p).after k = (Session.start q).after k) := by
  have hp := assembled_of_assemble h
  refine ⟨fun k => ?_, fun source' q hq => ?_⟩
  · have hsim := Processor.after_ofSession k (s := Session.start p) hp
    have hpk : ((Session.start p).after k).program.Assembled := by rwa [Session.after_program]
    have hstart : Processor.ofSession (Session.start p) = Processor.mk p.words {} false := rfl
    rw [← hstart, hsim]
    exact ⟨rfl, rfl, (Processor.step_ofSession hpk).2⟩
  · have hwords := words_eq_iff_hexText_eq hp (assembled_of_assemble hq)
    refine ⟨hwords, fun hhex k => ?_⟩
    rw [eq_of_words_eq hp (assembled_of_assemble hq) (hwords.2 hhex)]

/-- A loop in two spellings. -/
theorem words_determine_runs_loop :
    ∃ p q, assemble (Text.utf8 "mov4 R3 200\nmov1 R3 3\njz R3 1") = .ok p ∧
      assemble (Text.utf8 "mov4 R03 0200 # start\n\n mov1\tR3  3\njz R3 01\n") = .ok q ∧
      p.hexText = q.hexText ∧
      (∀ k, ((Processor.mk p.words {} false).after k).machine =
        ((Session.start p).after k).machine) ∧
      ∀ k, (Session.start p).after k = (Session.start q).after k := by
  let p : Program := #[⟨.mov4, [3, 200], .mov4 3 200, 0x33C8, Text.utf8 "33C8"⟩,
    ⟨.mov1, [3, 3], .mov1 3 3, 0x0303, Text.utf8 "0303"⟩,
    ⟨.jz, [3, 1], .jz 3 1, 0x6301, Text.utf8 "6301"⟩]
  have hp : assemble (Text.utf8 "mov4 R3 200\nmov1 R3 3\njz R3 1") = .ok p := by decide +kernel
  have hq : assemble (Text.utf8 "mov4 R03 0200 # start\n\n mov1\tR3  3\njz R3 01\n") = .ok p := by
    decide +kernel
  obtain ⟨hsim, hsame⟩ := words_determine_runs hp
  exact ⟨p, p, hp, hq, rfl, fun k => (hsim k).1, (hsame _ p hq).2 rfl⟩

end NibbleMachine
