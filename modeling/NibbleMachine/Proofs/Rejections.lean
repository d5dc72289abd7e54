import NibbleMachine.Proofs.Decoding
import NibbleMachine.Proofs.Programs

/-!
Why lines are turned down. What a line can be turned down for is of the line's own making: its
name, its operands or its word. Every instruction has a reader, so the one cause that would be
nobody's fault never comes up, and a line that is turned down is always named.
-/

namespace NibbleMachine

/-! ### Words -/

theorem Word.Unfit.kind {op : Opcode} {args : List Operand} {c : Cause}
    (h : Word.Unfit op args c) : c.kind = .encoding := by
  cases h <;> rfl

/-! ### Instructions and lines -/

/-- An instruction is turned down only for its word. -/
theorem Instruction.assemble_eq_error_iff {op : Opcode} {args : List Operand} {c : Cause} :
    Instruction.assemble op args = .error c ↔ Word.encode op args = .error c := by
  rw [Instruction.assemble, bind_eq_error_iff]
  refine or_iff_left ?_
  rintro ⟨w, hw, h⟩
  have ho := Operation.ofArgs_eq_ok_iff.2 ⟨(Word.encode_eq_ok_iff.1 hw).1.count, rfl⟩
  rw [Word.hex_eq_ok, ho] at h
  simp [bind, Except.bind, pure, Except.pure] at h

/-- A text that spells as many operands as an instruction takes. -/
def Spelled (op : Opcode) (args : List Operand) (operands : Text) : Prop :=
  args.length = op.shape.count.toNat ∧ Spells op.shape.registers.toNat 0 args operands

theorem read_eq_some_iff_spelled {op : Opcode} {args : List Operand} {operands : Text} :
    op.shape.read operands = some args ↔ Spelled op args operands :=
  Shape.read_eq_some_iff op.shape operands args

theorem read_eq_none_iff {op : Opcode} {operands : Text} :
    op.shape.read operands = none ↔ ¬ ∃ args, Spelled op args operands := by
  simp only [Option.eq_none_iff_forall_ne_some, ne_eq, read_eq_some_iff_spelled, not_exists]

/-- What there can be to object to in a name and an operand text: there is no instruction of this
    name; the text does not spell the operands of the instruction; it does, and they do not fit. -/
inductive Objection (name operands : Text) : Cause → Prop
  | unknown (hname : ∀ op : Opcode, name ≠ op.mnemonic) :
      Objection name operands (.unknownMnemonic name)
  | unreadable {op : Opcode} (hname : name = op.mnemonic)
      (hargs : ¬ ∃ args, Spelled op args operands) :
      Objection name operands (.unreadable op operands)
  | unfit {op : Opcode} {args : List Operand} {c : Cause} (hname : name = op.mnemonic)
      (hargs : Spelled op args operands) (hc : Word.Unfit op args c) : Objection name operands c

theorem readInstruction_eq_error_iff {name operands : Text} {c : Cause} :
    readInstruction name operands = .error c ↔ Objection name operands c := by
  constructor
  · intro h
    cases hop : Opcode.find? name with
    | none =>
      rw [readInstruction, hop] at h
      rw [← Except.error.inj h]
      exact .unknown (find?_eq_none_iff.1 hop)
    | some op =>
      have hname := find?_eq_some_iff.1 hop
      rw [hname, readInstruction_mnemonic] at h
      cases hargs : op.shape.read operands with
      | none =>
        rw [hargs] at h
        rw [← Except.error.inj h]
        exact .unreadable hname (read_eq_none_iff.1 hargs)
      | some args =>
        rw [hargs] at h
        have hc := Word.encode_eq_error_iff.1 (Instruction.assemble_eq_error_iff.1 h)
        exact .unfit hname (read_eq_some_iff_spelled.1 hargs) hc
  · intro h
    cases h with
    | unknown hname => rw [readInstruction, find?_eq_none_iff.2 hname]
    | unreadable hname hargs =>
      rw [hname, readInstruction_mnemonic, read_eq_none_iff.2 hargs]
    | unfit hname hargs hc =>
      rw [hname, readInstruction_mnemonic, read_eq_some_iff_spelled.2 hargs]
      exact Instruction.assemble_eq_error_iff.2 (Word.encode_eq_error_iff.2 hc)

theorem Objection.kind_ne_range {name operands : Text} {c : Cause}
    (h : Objection name operands c) : c.kind ≠ .range := by
  cases h with
  | unknown _ => simp [Cause.kind]
  | unreadable _ _ => simp [Cause.kind]
  | unfit _ _ hc => simp [hc.kind]

/-- No line is turned down for want of a reader. -/
theorem kind_of_readLine {line : Text} {c : Cause} (h : readLine line = .error c) :
    c.kind ≠ .range := by
  rw [readLine] at h
  split at h
  · simp at h
  · split at h
    · rw [← Except.error.inj h]
      simp [Cause.kind]
    · exact (readInstruction_eq_error_iff.1 (map_eq_error_iff.1 h)).kind_ne_range

/-- So every line that is turned down gets the blame. -/
theorem onLine_of_readLine {line : Text} {c : Cause} (h : readLine line = .error c) (n : Nat) :
    c.onLine n = { cause := c, line := some n } := by
  rw [Cause.onLine, if_neg (kind_of_readLine h)]

end NibbleMachine
