import NibbleMachine.Assembly.Line
import NibbleMachine.Proofs.Encoding
import NibbleMachine.Proofs.OperandGrammar

/-!
The grammar of source lines, and that a line is read exactly if it is in the grammar.

    lead  mnemonic  gap  operands  trail  # comment

The outer blanks and the gap are of all six kinds, the gaps between operands are spaces only.
Nothing checks that there is a gap before the first operand. The name is taken as far as letters
and digits go, and an operand starts with one of them, so without a gap it would have become part
of the name.
-/

namespace NibbleMachine

open Text

/-! ### The grammar -/

/-- What follows the name on a line: nothing if the instruction takes no operands, else blanks and
    the operands. -/
def Body (op : Opcode) (args : List Operand) (t : Text) : Prop :=
  args.length = op.shape.count.toNat ∧
    if op.shape.count = 0 then t = []
    else ∃ gap operands, gap ≠ [] ∧ Blank gap ∧
      Spells op.shape.registers.toNat 0 args operands ∧ t = gap ++ operands

/-- The lines that spell an instruction with operands. -/
def LineForm (op : Opcode) (args : List Operand) (line : Text) : Prop :=
  ∃ lead body trail comment, Blank lead ∧ Body op args body ∧ Blank trail ∧ Comment comment ∧
    line = lead ++ op.mnemonic ++ body ++ trail ++ comment

/-- The lines with nothing on them. -/
def BlankLine (line : Text) : Prop :=
  ∃ blanks comment, Blank blanks ∧ Comment comment ∧ line = blanks ++ comment

/-! ### Ends of texts -/

theorem blank_not_alnum {b : UInt8} (h : isBlank b = true) : isAlnum b = false := by
  rw [isBlank] at h
  rw [isAlnum, isDigit]
  grind

theorem alnum_not_blank {b : UInt8} (h : isAlnum b = true) : isBlank b = false := by
  cases hb : isBlank b with
  | false => rfl
  | true => rw [blank_not_alnum hb] at h; contradiction

theorem digit_alnum {b : UInt8} (h : isDigit b = true) : isAlnum b = true := by simp [isAlnum, h]

theorem solid_of_ends {b c : UInt8} {t u : Text} (hb : isAlnum b = true) (hc : isAlnum c = true)
    (ht : t = b :: u) (hlast : t.getLast? = some c) : Solid t := by
  refine ⟨by rw [ht]; exact stops_cons.2 (alnum_not_blank hb), ?_⟩
  intro d hd
  rw [List.head?_reverse, hlast] at hd
  rw [← Option.some.inj hd]
  exact alnum_not_blank hc

theorem Text.Numeral.getLast? {ds : Text} {n : Nat} (h : Numeral ds n) :
    ∃ b, isDigit b = true ∧ ds.getLast? = some b :=
  ⟨_, h.digit _ (List.getLast_mem h.ne_nil), List.getLast?_eq_some_getLast h.ne_nil⟩

theorem Token.getLast? {register : Bool} {v : Operand} {t : Text} (h : Token register v t) :
    ∃ b, isDigit b = true ∧ t.getLast? = some b := by
  obtain ⟨ds, hds, rfl⟩ := h
  obtain ⟨b, hb, hlast⟩ := hds.getLast?
  refine ⟨b, hb, ?_⟩
  cases register with
  | true => simp [List.getLast?_cons, hlast]
  | false => exact hlast

theorem Token.head {register : Bool} {v : Operand} {t : Text} (h : Token register v t) :
    ∃ b u, isAlnum b = true ∧ t = b :: u := by
  obtain ⟨ds, hds, rfl⟩ := h
  cases register with
  | true => exact ⟨_, ds, by decide, rfl⟩
  | false =>
    cases ds with
    | nil => exact absurd rfl hds.ne_nil
    | cons b ds => exact ⟨b, ds, digit_alnum (hds.digit b (by simp)), rfl⟩

/-- Operands end in a digit. -/
theorem Spells.getLast? {r i : Nat} {v : Operand} {vs : List Operand} {t : Text}
    (h : Spells r i (v :: vs) t) : ∃ b, isDigit b = true ∧ t.getLast? = some b := by
  generalize hus : v :: vs = us at h
  induction h generalizing v vs with
  | nil => simp at hus
  | @cons i u us gap token t hgap htoken ht ih =>
    cases us with
    | nil =>
      cases ht
      obtain ⟨b, hb, hlast⟩ := htoken.getLast?
      exact ⟨b, hb, by simp [List.getLast?_append, hlast]⟩
    | cons u' us =>
      obtain ⟨b, hb, hlast⟩ := ih rfl
      exact ⟨b, hb, by simp [List.getLast?_append, hlast]⟩

/-- Operands start with a letter or a digit. -/
theorem Spells.head {r : Nat} {v : Operand} {vs : List Operand} {t : Text}
    (h : Spells r 0 (v :: vs) t) : ∃ b u, isAlnum b = true ∧ t = b :: u := by
  cases h with
  | @cons _ _ _ gap token t hgap htoken _ =>
    obtain ⟨b, u, hb, rfl⟩ := htoken.head
    obtain rfl : gap = [] := by simpa [Gap] using hgap
    exact ⟨b, u ++ t, hb, rfl⟩

theorem Token.notMem {register : Bool} {v : Operand} {t : Text} (h : Token register v t) {b : UInt8}
    (hdigit : isDigit b = false) (hmark : b ≠ Shape.registerMark) : b ∉ t := by
  obtain ⟨ds, hds, rfl⟩ := h
  have hds' : b ∉ ds := by
    intro hb
    rw [hds.digit b hb] at hdigit
    contradiction
  cases register with
  | true => simp [hmark, hds']
  | false => exact hds'

/-- Operands hold no `#`. -/
theorem Spells.hash_notMem {r i : Nat} {vs : List Operand} {t : Text} (h : Spells r i vs t) :
    hash ∉ t := by
  induction h with
  | nil => simp
  | @cons i v vs gap token t hgap htoken _ ih =>
    have hgap' : hash ∉ gap := by
      intro hmem
      rw [Gap] at hgap
      split at hgap
      · simp [hgap] at hmem
      · exact absurd (hgap.2 _ hmem) (by decide)
    have htoken' : hash ∉ token := htoken.notMem (by decide) (by decide)
    simp [hgap', htoken', ih]

/-! ### Names -/

theorem mnemonic_alnum (op : Opcode) : ∀ b ∈ op.mnemonic, isAlnum b = true := by
  have hall : op.mnemonic.all isAlnum = true := by cases op <;> decide
  exact List.all_eq_true.1 hall

theorem mnemonic_ne_nil (op : Opcode) : op.mnemonic ≠ [] := by cases op <;> decide

theorem hash_notMem_mnemonic (op : Opcode) : hash ∉ op.mnemonic := by cases op <;> decide

theorem find?_eq_some_iff {name : Text} {op : Opcode} :
    Opcode.find? name = some op ↔ name = op.mnemonic := by
  constructor
  · intro h
    rw [Opcode.find?] at h
    have hop := List.find?_some h
    exact (beq_iff_eq.1 hop).symm
  · rintro rfl
    cases op <;> decide

theorem find?_eq_none_iff {name : Text} :
    Opcode.find? name = none ↔ ∀ op : Opcode, name ≠ op.mnemonic := by
  simp only [Option.eq_none_iff_forall_ne_some, ne_eq, find?_eq_some_iff]

theorem reader_eq (op : Opcode) : op.shape.reader = .ok op.shape := by cases op <;> rfl

theorem readInstruction_mnemonic (op : Opcode) (t : Text) :
    readInstruction op.mnemonic t = match op.shape.read t with
      | none => .error (.unreadable op t)
      | some args => Instruction.assemble op args := by
  rw [readInstruction, find?_eq_some_iff.2 rfl]
  cases hread : op.shape.read t <;> simp only [reader_eq, bind, Except.bind, hread]

/-- A mnemonic and a text that spells operands are the instruction with these operands, or the
    complaint that they do not fit. -/
theorem readInstruction_of_spells {op : Opcode} {args : List Operand} {t : Text}
    (hlen : args.length = op.shape.count.toNat)
    (ht : Spells op.shape.registers.toNat 0 args t) :
    readInstruction op.mnemonic t = Instruction.assemble op args := by
  rw [readInstruction_mnemonic, (Shape.read_eq_some_iff op.shape t args).2 ⟨hlen, ht⟩]

theorem spells_of_readInstruction {name t : Text} {i : Instruction}
    (h : readInstruction name t = .ok i) :
    name = i.op.mnemonic ∧ i.args.length = i.op.shape.count.toNat ∧
      Spells i.op.shape.registers.toNat 0 i.args t ∧ i.Assembled := by
  rw [readInstruction] at h
  split at h
  · simp at h
  · rename_i op hop
    obtain ⟨s, hs, h⟩ := bind_eq_ok_iff.1 h
    rw [reader_eq] at hs
    cases hs
    split at h
    · simp at h
    · rename_i args hargs
      have hi := Instruction.assembled_of_assemble h
      obtain ⟨rfl, rfl, -⟩ := Instruction.assemble_eq_ok_iff.1 h
      obtain ⟨hlen, hspells⟩ := (Shape.read_eq_some_iff _ _ _).1 hargs
      exact ⟨find?_eq_some_iff.1 hop, hlen, hspells, hi⟩

/-! ### Lines -/

theorem body_nil_iff {op : Opcode} {t : Text} :
    Body op [] t ↔ 0 = op.shape.count.toNat ∧ t = [] := by
  refine and_congr_right fun hlen => ?_
  rw [if_pos (UInt32.toNat_inj.1 hlen.symm)]

theorem body_cons_iff {op : Opcode} {v : Operand} {vs : List Operand} {t : Text} :
    Body op (v :: vs) t ↔ (v :: vs).length = op.shape.count.toNat ∧
      ∃ gap operands, gap ≠ [] ∧ Blank gap ∧
        Spells op.shape.registers.toNat 0 (v :: vs) operands ∧ t = gap ++ operands := by
  refine and_congr_right fun hlen => ?_
  have hcount : op.shape.count ≠ 0 := by
    intro h
    rw [h] at hlen
    simp at hlen
  rw [if_neg hcount]

/-- A body sets the operands off from the name, and its ends are not blank once it is trimmed. -/
theorem Body.cases {op : Opcode} {args : List Operand} {body : Text} (h : Body op args body) :
    ∃ operands, Spells op.shape.registers.toNat 0 args operands ∧ trim body = operands ∧
      Stops isAlnum body ∧ hash ∉ body ∧
      (body = [] ∨ ∃ b, isAlnum b = true ∧ body.getLast? = some b) := by
  cases args with
  | nil =>
    obtain ⟨-, rfl⟩ := body_nil_iff.1 h
    exact ⟨[], .nil 0, rfl, stops_nil _, by simp, Or.inl rfl⟩
  | cons v vs =>
    obtain ⟨-, gap, operands, hne, hgap, hspells, rfl⟩ := body_cons_iff.1 h
    obtain ⟨b, u, hb, hhead⟩ := hspells.head
    obtain ⟨c, hc, hlast⟩ := hspells.getLast?
    refine ⟨operands, hspells, ?_, ?_, ?_, Or.inr ⟨c, digit_alnum hc, ?_⟩⟩
    · rw [trim_blank_append hgap, trim_of_solid (solid_of_ends hb (digit_alnum hc) hhead hlast)]
    · cases gap with
      | nil => exact absurd rfl hne
      | cons g gap => exact stops_cons.2 (blank_not_alnum (hgap g (by simp)))
    · simp [hash_notMem_of_blank hgap, hspells.hash_notMem]
    · simp [List.getLast?_append, hlast]

/-- A line of the grammar is read as its instruction, or as the complaint that its operands do not
    fit. -/
theorem readLine_of_form {op : Opcode} {args : List Operand} {line : Text}
    (h : LineForm op args line) : readLine line = some <$> Instruction.assemble op args := by
  obtain ⟨lead, body, trail, comment, hlead, hbody, htrail, hcomment, rfl⟩ := h
  obtain ⟨operands, hspells, htrim, hstops, hhash, hend⟩ := hbody.cases
  obtain ⟨b, name, hname⟩ : ∃ b name, op.mnemonic = b :: name :=
    List.exists_cons_of_ne_nil (mnemonic_ne_nil op)
  have hb : isAlnum b = true := mnemonic_alnum op b (by simp [hname])
  -- the code of the line is the mnemonic and the body between blanks
  have hcode : hash ∉ lead ++ op.mnemonic ++ body ++ trail := by
    simp [hash_notMem_of_blank hlead, hash_notMem_of_blank htrail, hash_notMem_mnemonic, hhash]
  have hsolid : Solid (op.mnemonic ++ body) := by
    rcases hend with rfl | ⟨c, hc, hlast⟩
    · have hlast := List.getLast?_eq_some_getLast (mnemonic_ne_nil op)
      rw [List.append_nil]
      exact solid_of_ends hb (mnemonic_alnum op _ (List.getLast_mem _)) hname hlast
    · refine solid_of_ends hb hc (u := name ++ body) (by rw [hname]; rfl) ?_
      simp [List.getLast?_append, hlast]
  have hline : trim (dropComment (lead ++ op.mnemonic ++ body ++ trail ++ comment)) =
      op.mnemonic ++ body := by
    rw [dropComment_append hcode hcomment, List.append_assoc lead, trim_between hlead htrail hsolid]
  have htake : (op.mnemonic ++ body).takeWhile isAlnum = op.mnemonic :=
    takeWhile_run (mnemonic_alnum op) hstops
  have hdrop : (op.mnemonic ++ body).dropWhile isAlnum = body :=
    dropWhile_run (mnemonic_alnum op) hstops
  have hne : op.mnemonic ++ body ≠ [] := by simp [mnemonic_ne_nil op]
  rw [readLine, hline, htake, hdrop, htrim, if_neg (by simpa using hne),
    if_neg (by simpa using mnemonic_ne_nil op), readInstruction_of_spells hbody.1 hspells]

/-- A line is blanks, its code, blanks again and a comment. -/
theorem exists_layout (line : Text) : ∃ lead trail comment, Blank lead ∧ Blank trail ∧
    Comment comment ∧ hash ∉ lead ++ trim (dropComment line) ++ trail ∧
    line = lead ++ trim (dropComment line) ++ trail ++ comment := by
  obtain ⟨comment, hcomment, hline⟩ := exists_comment line
  obtain ⟨lead, trail, hlead, htrail, hcode⟩ := exists_trim (dropComment line)
  refine ⟨lead, trail, comment, hlead, htrail, hcomment, ?_⟩
  rw [← hcode]
  exact ⟨hash_notMem_dropComment line, hline⟩

theorem readLine_eq_none_iff {line : Text} : readLine line = .ok none ↔ BlankLine line := by
  have hempty : readLine line = .ok none ↔ trim (dropComment line) = [] := by
    rw [readLine]
    constructor
    · intro h
      split at h
      · rename_i hline
        exact List.isEmpty_iff.1 hline
      · split at h
        · simp at h
        · obtain ⟨i, -, hi⟩ := map_eq_ok_iff.1 h
          simp at hi
    · intro h
      rw [if_pos (by simp [h])]
  rw [hempty]
  constructor
  · intro h
    obtain ⟨lead, trail, comment, hlead, htrail, hcomment, -, hline⟩ := exists_layout line
    rw [h, List.append_nil] at hline
    exact ⟨lead ++ trail, comment, hlead.append htrail, hcomment, hline⟩
  · rintro ⟨blanks, comment, hblanks, hcomment, rfl⟩
    rw [dropComment_append (hash_notMem_of_blank hblanks) hcomment, trim_of_blank hblanks]

/-- What follows a name as far as letters and digits go is a body and blanks, if it spells operands
    once it is trimmed. -/
theorem exists_body {op : Opcode} {args : List Operand} {rest : Text} (hrest : Stops isAlnum rest)
    (hlen : args.length = op.shape.count.toNat)
    (hspells : Spells op.shape.registers.toNat 0 args (trim rest)) :
    ∃ body trail, Body op args body ∧ Blank trail ∧ rest = body ++ trail := by
  obtain ⟨gap, trail, hgap, htrail, heq⟩ := exists_trim rest
  cases args with
  | nil =>
    rw [hspells.eq_nil, List.append_nil] at heq
    exact ⟨[], gap ++ trail, body_nil_iff.2 ⟨hlen, rfl⟩, hgap.append htrail, heq⟩
  | cons v vs =>
    -- without a gap, the first operand would have been read as part of the name
    have hne : gap ≠ [] := by
      rintro rfl
      obtain ⟨b, u, hb, hhead⟩ := hspells.head
      rw [heq, hhead] at hrest
      rw [stops_cons.1 hrest] at hb
      contradiction
    have hbody : Body op (v :: vs) (gap ++ trim rest) :=
      body_cons_iff.2 ⟨hlen, gap, trim rest, hne, hgap, hspells, rfl⟩
    exact ⟨gap ++ trim rest, trail, hbody, htrail, heq⟩

/-- A line that is read as an instruction is in the grammar. -/
theorem form_of_readLine {line : Text} {i : Instruction} (h : readLine line = .ok (some i)) :
    LineForm i.op i.args line ∧ i.Assembled := by
  obtain ⟨lead, trail, comment, hlead, htrail, hcomment, -, hline⟩ := exists_layout line
  rw [readLine] at h
  split at h
  · simp at h
  · split at h
    · simp at h
    · obtain ⟨j, hread, hj⟩ := map_eq_ok_iff.1 h
      obtain rfl : j = i := Option.some.inj hj
      obtain ⟨hname, hlen, hspells, hasm⟩ := spells_of_readInstruction hread
      obtain ⟨body, trail', hbody, htrail', hrest⟩ :=
        exists_body (stops_dropWhile isAlnum _) hlen hspells
      refine ⟨⟨lead, body, trail' ++ trail, comment, hlead, hbody, htrail'.append htrail,
        hcomment, ?_⟩, hasm⟩
      have hcode : trim (dropComment line) = j.op.mnemonic ++ (body ++ trail') := by
        rw [← hname, ← hrest, List.takeWhile_append_dropWhile]
      rw [hcode] at hline
      simpa using hline

/-- The language of lines. An instruction is read from exactly the lines that spell it with
    operands that fit its word, nothing is read from exactly the blank lines, and every other line
    is turned down. -/
theorem readLine_language (line : Text) :
    (∀ op args, (∃ i, readLine line = .ok (some i) ∧ i.op = op ∧ i.args = args) ↔
      LineForm op args line ∧ Word.Fits op args) ∧
    (readLine line = .ok none ↔ BlankLine line) ∧
    ((∃ c, readLine line = .error c) ↔
      ¬ BlankLine line ∧ ¬ ∃ op args, LineForm op args line ∧ Word.Fits op args) := by
  have hsome : ∀ op args, (∃ i, readLine line = .ok (some i) ∧ i.op = op ∧ i.args = args) ↔
      LineForm op args line ∧ Word.Fits op args := by
    intro op args
    constructor
    · rintro ⟨i, hi, rfl, rfl⟩
      obtain ⟨hform, hasm⟩ := form_of_readLine hi
      exact ⟨hform, hasm.fits⟩
    · rintro ⟨hform, hfits⟩
      obtain ⟨i, hi⟩ := Instruction.exists_assemble_iff.2 hfits
      obtain ⟨hop, hargs, -⟩ := Instruction.assemble_eq_ok_iff.1 hi
      refine ⟨i, ?_, hop, hargs⟩
      rw [readLine_of_form hform, hi]
      rfl
  refine ⟨hsome, readLine_eq_none_iff, ?_⟩
  rw [← readLine_eq_none_iff]
  simp only [← hsome]
  cases h : readLine line with
  | error c => simp
  | ok found =>
    cases found with
    | none => simp
    | some i => simp

end NibbleMachine
