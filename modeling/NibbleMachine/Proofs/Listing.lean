import NibbleMachine.Proofs.Programs
import NibbleMachine.Report.Basic

/-!
A listing can be assembled again. Its last column has each instruction in one fixed spelling, with
single spaces and no leading zeros. This spelling is in the grammar of lines, so it is read as the
operands that it was written from, and the assembler makes the same instruction of them as before.
-/

namespace NibbleMachine

open Text

/-! ### The spelling of an instruction -/

/-- An operand as it is written: an `R` if it is a register, and its number. -/
def operandText (registers : Nat) (v : Operand) (j : Nat) : Text :=
  if j < registers then Shape.registerMark :: decimal v.toNat else decimal v.toNat

/-- The operands from index `j` on, with a space before each. -/
def operandsText (registers : Nat) (vs : List Operand) (j : Nat) : Text :=
  (vs.zipIdx j).flatMap fun (v, j) => space :: operandText registers v j

/-- An instruction as a line of source. -/
def Instruction.source (i : Instruction) : Text :=
  i.op.mnemonic ++ operandsText i.op.shape.registers.toNat i.args 0

theorem operandsText_cons (registers : Nat) (v : Operand) (vs : List Operand) (j : Nat) :
    operandsText registers (v :: vs) j =
      space :: (operandText registers v j ++ operandsText registers vs (j + 1)) := by
  simp [operandsText]

theorem token_operandText (registers : Nat) (v : Operand) (j : Nat) :
    Token (j < registers) v (operandText registers v j) :=
  ⟨decimal v.toNat, numeral_decimal v.toNat, by simp [operandText]⟩

/-- Operands after the first are spelled with the space before them as their gap. -/
theorem spells_operandsText (registers : Nat) : ∀ (vs : List Operand) (j : Nat),
    Spells registers (j + 1) vs (operandsText registers vs (j + 1))
  | [], j => .nil (j + 1)
  | v :: vs, j => by
    have hgap : Gap (j + 1) [space] := by simp [Gap]
    rw [operandsText_cons]
    exact .cons hgap (token_operandText registers v (j + 1))
      (spells_operandsText registers vs (j + 1))

/-- All operands are a body, with the first space as its gap. -/
theorem body_operandsText {op : Opcode} {args : List Operand}
    (hlen : args.length = op.shape.count.toNat) :
    Body op args (operandsText op.shape.registers.toNat args 0) := by
  cases args with
  | nil => exact body_nil_iff.2 ⟨hlen, rfl⟩
  | cons v vs =>
    have hgap : Blank [space] := by simp [Blank, isBlank, space]
    have hfirst : Gap 0 [] := by simp [Gap]
    rw [operandsText_cons]
    refine body_cons_iff.2 ⟨hlen, [space], _, by simp, hgap, ?_, rfl⟩
    exact .cons hfirst (token_operandText _ v 0) (spells_operandsText _ vs 0)

namespace Instruction.Assembled

variable {i : Instruction}

theorem lineForm_source (h : i.Assembled) : LineForm i.op i.args i.source :=
  ⟨[], _, [], [], blank_nil, body_operandsText h.fits.count, blank_nil, by simp [Comment],
    by simp [source]⟩

/-- The spelling of an instruction is read as this instruction. -/
theorem readLine_source (h : i.Assembled) : readLine i.source = .ok (some i) := by
  rw [readLine_of_form h.lineForm_source, h]
  rfl

end Instruction.Assembled

theorem newline_notMem_source (i : Instruction) : newline ∉ i.source := by
  have hname : newline ∉ i.op.mnemonic := by cases i.op <;> decide
  have hspace : newline ≠ space := by decide
  rw [Instruction.source, List.mem_append, not_or]
  refine ⟨hname, ?_⟩
  intro h
  obtain ⟨⟨v, j⟩, -, hmem⟩ := List.mem_flatMap.1 h
  rcases List.mem_cons.1 hmem with hmem | hmem
  · exact hspace hmem
  · exact (token_operandText _ v j).notMem (by decide) (by decide) hmem

/-- The spellings of the instructions of a program, a line each, are a source of this program. -/
theorem Program.Assembled.assemble_sources {p : Program} (h : p.Assembled) :
    assemble (p.toList.flatMap fun i => i.source ++ [newline]) = .ok p := by
  have hlines := assembleLines_map Instruction.source 1 fun i hi => (h i hi).readLine_source
  rw [assemble, lines_flatMap Instruction.source fun i _ => newline_notMem_source i, hlines]
  rfl

/-! ### The text of a listing -/

namespace Style

theorem write_append : ∀ (s : Style) (is js : List Item), s.write (is ++ js) =
    (((s.write is).1.write js).1, (s.write is).2 ++ ((s.write is).1.write js).2)
  | s, [], js => rfl
  | s, i :: is, js => by
    rw [List.cons_append, write_cons, write_append (s.put i).1 is js, write_cons, List.append_assoc]

/-- Rows of items that put the settings back are written each on its own. -/
theorem write_flatMap {α : Type} {s : Style} {f : α → List Item} {g : α → Text} :
    ∀ {l : List α}, (∀ a ∈ l, s.write (f a) = (s, g a)) → s.write (l.flatMap f) = (s, l.flatMap g)
  | [], _ => rfl
  | a :: l, h => by
    have hrest := write_flatMap fun b hb => h b (List.mem_cons_of_mem a hb)
    rw [List.flatMap_cons, write_append, h a (by simp), hrest, List.flatMap_cons]

theorem put_text (t : Text) : ({} : Style).put (.text t) = ({}, t) := by simp [put, pad]

theorem put_number (n : Nat) : ({} : Style).put (.number n) = ({}, decimal n) := by
  simp [put, pad, decimal]

end Style

namespace Report

open Style

theorem write_operandItems (registers : Nat) (v : Operand) (j : Nat) :
    ({} : Style).write (operandItems registers v j) =
      ({}, space :: operandText registers v j) := by
  rw [operandItems, operandText]
  split <;> simp [put_text, put_number]

theorem write_sourceItems (i : Instruction) :
    ({} : Style).write (sourceItems i) = ({}, i.source) := by
  have hargs := write_flatMap (l := i.args.zipIdx) fun a _ =>
    write_operandItems i.op.shape.registers.toNat a.1 a.2
  rw [sourceItems, write_cons, put_text, hargs]
  rfl

theorem write_instructionItems (n : Nat) (i : Instruction) :
    ({} : Style).write (instructionItems n i) =
      ({}, (decimal n).leftpad 4 space ++ utf8 "  " ++ i.hex ++ utf8 "  " ++ i.source
        ++ [newline]) := by
  have hcolumns : ({} : Style).write [.width 4, .number n, say "  ", .text i.hex, say "  "] =
      ({}, (decimal n).leftpad 4 space ++ utf8 "  " ++ i.hex ++ utf8 "  ") := by
    simp [put, pad, decimal, say]
  have hend : ({} : Style).write [say "\n"] = ({}, [newline]) := by
    rw [write_cons, say, put_text]
    rfl
  rw [instructionItems, write_append, write_append, hcolumns, write_sourceItems, hend]

theorem text_listing (p : Program) :
    (listing p).text = p.toList.zipIdx.flatMap fun (i, n) =>
      (decimal n).leftpad 4 space ++ utf8 "  " ++ i.hex ++ utf8 "  " ++ i.source ++ [newline] := by
  have hlines := write_flatMap (l := p.toList.zipIdx) fun a _ => write_instructionItems a.2 a.1
  rw [text, print, items, hlines]

end Report

/-- Every listing can be assembled again. Its lines have the index of the instruction in at least
    four columns, its word in four digits and its spelling, two spaces apart, and the spellings
    alone are a source of the same program. Also by itself, each instruction that is read from a
    line is read again from its spelling. -/
theorem listing_reassembles {source : Text} {p : Program} (h : assemble source = .ok p) :
    ((Report.listing p).text = p.toList.zipIdx.flatMap fun (i, n) =>
      (decimal n).leftpad 4 space ++ utf8 "  " ++ i.hex ++ utf8 "  " ++ i.source ++ [newline]) ∧
    (∀ i ∈ p.toList, i.hex.length = 4) ∧
    assemble (p.toList.flatMap fun i => i.source ++ [newline]) = .ok p ∧
    ∀ line i, readLine line = .ok (some i) → readLine i.source = .ok (some i) := by
  have hp := assembled_of_assemble h
  refine ⟨Report.text_listing p, fun i hi => ?_, hp.assemble_sources, fun line i hline => ?_⟩
  · rw [(hp i hi).hex]
    exact Word.length_digits i.word
  · exact (form_of_readLine hline).2.readLine_source

/-- A source with comments, tabs and leading zeros. -/
theorem listing_reassembles_commented :
    ∃ p, assemble (utf8 "\tmov4 R03  0200 # start\n\nadd R1 R2 R15\nhalt#") = .ok p ∧
      (Report.listing p).text =
        utf8 "   0  33C8  mov4 R3 200\n   1  412F  add R1 R2 R15\n   2  F000  halt\n" ∧
      assemble (utf8 "mov4 R3 200\nadd R1 R2 R15\nhalt\n") = .ok p := by
  let p : Program := #[⟨.mov4, [3, 200], .mov4 3 200, 0x33C8, utf8 "33C8"⟩,
    ⟨.add, [1, 2, 15], .add 1 2 15, 0x412F, utf8 "412F"⟩, ⟨.halt, [], .halt, 0xF000, utf8 "F000"⟩]
  have hp : assemble (utf8 "\tmov4 R03  0200 # start\n\nadd R1 R2 R15\nhalt#") = .ok p := by
    decide +kernel
  have hsources : utf8 "mov4 R3 200\nadd R1 R2 R15\nhalt\n" =
      p.toList.flatMap fun i => i.source ++ [newline] := by decide +kernel
  obtain ⟨htext, -, hassemble, -⟩ := listing_reassembles hp
  refine ⟨p, hp, ?_, ?_⟩
  · rw [htext]
    decide +kernel
  · rw [hsources]
    exact hassemble

end NibbleMachine
