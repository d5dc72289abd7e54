import NibbleMachine.Proofs.Rejections

/-!
Which lines are turned down, and for what. A line falls into its code, the name that the code
starts with and the operands behind the name, in one way only, and these parts decide: code that
starts with no name, a name that no instruction has, operands that cannot be read, operands that do
not fit a word. The checks that the assembler makes of its own work are never what fails.
-/

namespace NibbleMachine

open Text

/-! ### The parts of a line -/

/-- What a line is made of: its code, between blanks and in front of a comment; in the code the
    name, which is all the letters and digits that it starts with; and the operands, between blanks
    after the name. -/
structure Parts (line code name operands : Text) : Prop where
  layout : ∃ lead trail comment, Blank lead ∧ Blank trail ∧ Comment comment ∧
    hash ∉ lead ++ code ++ trail ∧ line = lead ++ code ++ trail ++ comment
  code_solid : Solid code
  name_alnum : ∀ b ∈ name, isAlnum b = true
  rest : ∃ lead trail, Blank lead ∧ Blank trail ∧ Stops isAlnum (lead ++ operands ++ trail) ∧
    code = name ++ (lead ++ operands ++ trail)
  operands_solid : Solid operands

/-- A line has its parts in one way only, and they are what the reader cuts it into. -/
theorem parts_iff {line code name operands : Text} :
    Parts line code name operands ↔ code = trim (dropComment line) ∧
      name = code.takeWhile isAlnum ∧ operands = trim (code.dropWhile isAlnum) := by
  constructor
  · rintro ⟨⟨lead, trail, comment, hlead, htrail, hcomment, hhash, rfl⟩, hcode, hname,
      ⟨lead', trail', hlead', htrail', hstops, hrest⟩, hoperands⟩
    refine ⟨?_, ?_, ?_⟩
    · rw [dropComment_append hhash hcomment, trim_between hlead htrail hcode]
    · rw [hrest, takeWhile_run hname hstops]
    · rw [hrest, dropWhile_run hname hstops, trim_between hlead' htrail' hoperands]
  · rintro ⟨rfl, rfl, rfl⟩
    obtain ⟨lead, trail, hlead, htrail, hrest⟩ :=
      exists_trim ((trim (dropComment line)).dropWhile isAlnum)
    refine ⟨exists_layout line, solid_trim _, fun b hb => List.mem_takeWhile_imp hb,
      ⟨lead, trail, hlead, htrail, ?_, ?_⟩, solid_trim _⟩
    · rw [← hrest]
      exact stops_dropWhile isAlnum _
    · rw [← hrest, List.takeWhile_append_dropWhile]

theorem exists_parts (line : Text) : ∃ code name operands, Parts line code name operands :=
  ⟨_, _, _, parts_iff.2 ⟨rfl, rfl, rfl⟩⟩

section

variable {line code name operands : Text} (h : Parts line code name operands)
include h

theorem Parts.name_ne_nil_iff : name ≠ [] ↔ ∃ b u, code = b :: u ∧ isAlnum b = true := by
  rw [(parts_iff.1 h).2.1]
  cases code with
  | nil => simp
  | cons b u => cases hb : isAlnum b <;> simp [hb]

theorem Parts.unnamed_iff :
    (code ≠ [] ∧ name = []) ↔ ∃ b u, code = b :: u ∧ isAlnum b = false := by
  rw [(parts_iff.1 h).2.1]
  cases code with
  | nil => simp
  | cons b u => cases hb : isAlnum b <;> simp [hb]

/-! ### Lines that are turned down -/

/-- A line is turned down for having code without a name, or for what there is to object to in its
    name and its operands. -/
theorem Parts.readLine_eq_error_iff {c : Cause} : readLine line = .error c ↔
    (code ≠ [] ∧ name = []) ∧ c = .noMnemonic code ∨ name ≠ [] ∧ Objection name operands c := by
  obtain ⟨rfl, rfl, rfl⟩ := parts_iff.1 h
  rw [readLine]
  split
  · rename_i hcode
    rw [List.isEmpty_iff.1 hcode]
    simp
  · rename_i hcode
    split
    · rename_i hname
      rw [List.isEmpty_iff] at hcode hname
      simp [hcode, hname, eq_comm]
    · rename_i hname
      rw [List.isEmpty_iff] at hname
      rw [map_eq_error_iff, readInstruction_eq_error_iff]
      simp [hname]

end

/-- The family of causes that a line is turned down for. -/
def Rejects (line : Text) (k : Cause.Kind) : Prop := ∃ c, readLine line = .error c ∧ c.kind = k

/-- The causes that the assembler guards against in its own work: a number of operands that is not
    the instruction's, numbers too wide for where they go, a shape that nothing reads. -/
def Cause.internal : Cause → Bool
  | .operandCount .. | .incomplete _ | .wideCode _ | .wideWord _ | .wideHex .. | .noReader _ => true
  | _ => false

/-- A register that is too wide for a field, or an immediate that is too wide for what the
    registers leave. -/
def Wide (op : Opcode) (args : List Operand) : Prop :=
  (∃ r ∈ args.take op.shape.registers.toNat, 15 < r.toNat) ∨
    op.shape.immediate = true ∧
      2 ^ (12 - 4 * op.shape.registers.toNat) ≤ (args.getLastD 0).toNat

theorem exists_unfit_iff_wide {op : Opcode} {args : List Operand}
    (hcount : args.length = op.shape.count.toNat) : (∃ c, Word.Unfit op args c) ↔ Wide op args := by
  constructor
  · rintro ⟨c, hc⟩
    cases hc with
    | count h => exact absurd hcount h
    | register _ hr =>
      have hlt := List.find?_some hr
      exact Or.inl ⟨_, List.mem_of_find?_eq_some hr, by simpa using hlt⟩
    | immediate _ _ himm hwide => exact Or.inr ⟨himm, hwide⟩
  · intro hwide
    -- the registers are looked at before the immediate
    cases hfind : (args.take op.shape.registers.toNat).find? (15 < ·.toNat) with
    | some r => exact ⟨_, .register hcount hfind⟩
    | none =>
      have hnarrow : ∀ r ∈ args.take op.shape.registers.toNat, r.toNat ≤ 15 := by
        simpa using hfind
      rcases hwide with ⟨r, hr, hlt⟩ | ⟨himm, hle⟩
      · exact absurd hlt (Nat.not_lt.2 (hnarrow r hr))
      · exact ⟨_, .immediate hcount hnarrow himm hle⟩

theorem Objection.internal {name operands : Text} {c : Cause} (h : Objection name operands c) :
    c.internal = false := by
  cases h with
  | unknown _ => rfl
  | unreadable _ _ => rfl
  | unfit _ hargs hc =>
    cases hc with
    | count h => exact absurd hargs.1 h
    | register _ _ => rfl
    | immediate _ _ _ _ => rfl

section

variable {line code name operands : Text} (h : Parts line code name operands)
include h

theorem Parts.internal_of_readLine {c : Cause} (hc : readLine line = .error c) :
    c.internal = false := by
  rcases h.readLine_eq_error_iff.1 hc with ⟨-, rfl⟩ | ⟨-, hobj⟩
  · rfl
  · exact hobj.internal

theorem Parts.rejects_naming_iff :
    Rejects line .naming ↔ ∃ b u, code = b :: u ∧ isAlnum b = false := by
  rw [← h.unnamed_iff]
  constructor
  · rintro ⟨c, hc, hkind⟩
    rcases h.readLine_eq_error_iff.1 hc with ⟨hunnamed, -⟩ | ⟨-, hobj⟩
    · exact hunnamed
    · cases hobj with
      | unknown _ => simp [Cause.kind] at hkind
      | unreadable _ _ => simp [Cause.kind] at hkind
      | unfit _ _ hc => simp [hc.kind] at hkind
  · intro hunnamed
    exact ⟨_, h.readLine_eq_error_iff.2 (Or.inl ⟨hunnamed, rfl⟩), rfl⟩

/-- For every other family it is the name and the operands that matter. -/
theorem Parts.rejects_iff {k : Cause.Kind} (hk : k ≠ .naming) :
    Rejects line k ↔ name ≠ [] ∧ ∃ c, Objection name operands c ∧ c.kind = k := by
  simp only [Rejects, h.readLine_eq_error_iff]
  constructor
  · rintro ⟨c, ⟨-, rfl⟩ | ⟨hname, hobj⟩, hkind⟩
    · exact absurd hkind.symm hk
    · exact ⟨hname, c, hobj, hkind⟩
  · rintro ⟨hname, c, hobj, hkind⟩
    exact ⟨c, Or.inr ⟨hname, hobj⟩, hkind⟩

theorem Parts.rejects_unknown_iff : Rejects line .unknown ↔
    (∃ b u, code = b :: u ∧ isAlnum b = true) ∧ ∀ op : Opcode, name ≠ op.mnemonic := by
  rw [h.rejects_iff (by simp), h.name_ne_nil_iff]
  refine and_congr_right fun _ => ?_
  constructor
  · rintro ⟨c, hobj, hkind⟩
    cases hobj with
    | unknown hname => exact hname
    | unreadable _ _ => simp [Cause.kind] at hkind
    | unfit _ _ hc => simp [hc.kind] at hkind
  · intro hname
    exact ⟨_, .unknown hname, rfl⟩

theorem Parts.rejects_operands_iff : Rejects line .operands ↔
    ∃ op : Opcode, name = op.mnemonic ∧ ¬ ∃ args, Spelled op args operands := by
  rw [h.rejects_iff (by simp)]
  constructor
  · rintro ⟨-, c, hobj, hkind⟩
    cases hobj with
    | unknown _ => simp [Cause.kind] at hkind
    | unreadable hname hargs => exact ⟨_, hname, hargs⟩
    | unfit _ _ hc => simp [hc.kind] at hkind
  · rintro ⟨op, hname, hargs⟩
    exact ⟨hname ▸ mnemonic_ne_nil op, _, .unreadable hname hargs, rfl⟩

theorem Parts.rejects_encoding_iff : Rejects line .encoding ↔
    ∃ (op : Opcode) (args : List Operand),
      name = op.mnemonic ∧ Spelled op args operands ∧ Wide op args := by
  rw [h.rejects_iff (by simp)]
  constructor
  · rintro ⟨-, c, hobj, hkind⟩
    cases hobj with
    | unknown _ => simp [Cause.kind] at hkind
    | unreadable _ _ => simp [Cause.kind] at hkind
    | unfit hname hargs hc =>
      exact ⟨_, _, hname, hargs, (exists_unfit_iff_wide hargs.1).1 ⟨c, hc⟩⟩
  · rintro ⟨op, args, hname, hargs, hwide⟩
    obtain ⟨c, hc⟩ := (exists_unfit_iff_wide hargs.1).2 hwide
    exact ⟨hname ▸ mnemonic_ne_nil op, c, .unfit hname hargs hc, hc.kind⟩

end

/-- Every line has its parts, and they decide what it is turned down for: code that starts with
    neither a letter nor a digit, a name that is no mnemonic, operands that are not spelled as the
    instruction takes them, and operands that are, with a register or an immediate that is too wide.
    There is nothing else that a line is turned down for, and none of the checks that the assembler
    makes of its own work fails. -/
theorem readLine_rejections (line : Text) :
    (∃ code name operands, Parts line code name operands) ∧
    ∀ code name operands, Parts line code name operands →
      (Rejects line .naming ↔ ∃ b u, code = b :: u ∧ isAlnum b = false) ∧
      (Rejects line .unknown ↔
        (∃ b u, code = b :: u ∧ isAlnum b = true) ∧ ∀ op : Opcode, name ≠ op.mnemonic) ∧
      (Rejects line .operands ↔
        ∃ op : Opcode, name = op.mnemonic ∧ ¬ ∃ args, Spelled op args operands) ∧
      (Rejects line .encoding ↔ ∃ (op : Opcode) (args : List Operand),
        name = op.mnemonic ∧ Spelled op args operands ∧ Wide op args) ∧
      ¬ Rejects line .range ∧
      ∀ c, readLine line = .error c → c.internal = false := by
  refine ⟨exists_parts line, fun code name operands h => ?_⟩
  refine ⟨h.rejects_naming_iff, h.rejects_unknown_iff, h.rejects_operands_iff,
    h.rejects_encoding_iff, ?_, fun c => h.internal_of_readLine⟩
  rintro ⟨c, hc, hkind⟩
  exact kind_of_readLine hc hkind

/-- The largest number that can be read is too wide for a word, and the next one cannot be read. -/
theorem readLine_rejections_widest :
    (Parts (utf8 "\tmov1 R1  4294967295 # wide") (utf8 "mov1 R1  4294967295") (utf8 "mov1")
        (utf8 "R1  4294967295") ∧
      Rejects (utf8 "\tmov1 R1  4294967295 # wide") .encoding) ∧
    Parts (utf8 "mov1 R1 4294967296") (utf8 "mov1 R1 4294967296") (utf8 "mov1")
        (utf8 "R1 4294967296") ∧
      ∃ op : Opcode, utf8 "mov1" = op.mnemonic ∧
        ¬ ∃ args, Spelled op args (utf8 "R1 4294967296") := by
  have hwide : Parts (utf8 "\tmov1 R1  4294967295 # wide") (utf8 "mov1 R1  4294967295")
      (utf8 "mov1") (utf8 "R1  4294967295") := parts_iff.2 (by decide +kernel)
  have hhuge : Parts (utf8 "mov1 R1 4294967296") (utf8 "mov1 R1 4294967296") (utf8 "mov1")
      (utf8 "R1 4294967296") := parts_iff.2 (by decide +kernel)
  have hspelled : Spelled .mov1 [1, 4294967295] (utf8 "R1  4294967295") :=
    read_eq_some_iff_spelled.1 (by decide +kernel)
  obtain ⟨-, -, -, hencoding, -⟩ := (readLine_rejections _).2 _ _ _ hwide
  obtain ⟨-, -, hoperands, -⟩ := (readLine_rejections _).2 _ _ _ hhuge
  refine ⟨⟨hwide, hencoding.2 ⟨.mov1, _, by decide +kernel, hspelled, Or.inr (by decide)⟩⟩, hhuge,
    hoperands.1 ⟨.unreadable .mov1 (utf8 "R1 4294967296"), by decide +kernel, rfl⟩⟩

end NibbleMachine
