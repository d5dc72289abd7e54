import NibbleMachine.Proofs.SourceLines

/-!
Layout does not count. A line is read as what is left of it without its comment and without the
blanks around the rest, so blanks may be added at both ends of a line, and behind it a comment too.
None of this has to be a line that can be read: a complaint quotes only what is left.

A source may then be laid out anew at the end of each of its lines. As long as no newline is added
its lines keep their numbers, so it is assembled into the same program or turned down for the same
cause on the same line.
-/

namespace NibbleMachine

open Text

/-! ### Lines -/

/-- Only what stands between the blanks in front of the comment is read. -/
theorem readLine_congr {l l' : Text} (h : trim (dropComment l) = trim (dropComment l')) :
    readLine l = readLine l' := by
  simp only [readLine, h]

/-- What is added around a line is cut off with the comment or with the blanks. -/
theorem trim_dropComment_between {lead tail : Text} (hlead : Blank lead) (line : Text)
    (htail : BlankLine tail) :
    trim (dropComment (lead ++ line ++ tail)) = trim (dropComment line) := by
  obtain ⟨blanks, comment, hblanks, hcomment, rfl⟩ := htail
  obtain ⟨rest, hrest, hline⟩ := exists_comment line
  have hhash := hash_notMem_dropComment line
  generalize dropComment line = code at hhash hline ⊢
  have hcode : hash ∉ lead ++ code := by simp [hash_notMem_of_blank hlead, hhash]
  rcases hrest with rfl | ⟨rest, rfl⟩
  · -- the line has no comment of its own, so the blanks behind it are still there to be trimmed
    have hcode' : hash ∉ lead ++ code ++ blanks :=
      List.not_mem_append hcode (hash_notMem_of_blank hblanks)
    have htext : lead ++ line ++ (blanks ++ comment) = lead ++ code ++ blanks ++ comment := by
      rw [hline, List.append_nil, List.append_assoc _ blanks]
    rw [htext, dropComment_append hcode' hcomment, trim_append_blank hblanks,
      trim_blank_append hlead]
  · -- all that is added behind the line goes into its comment
    have htext : lead ++ line ++ (blanks ++ comment) =
        lead ++ code ++ hash :: (rest ++ (blanks ++ comment)) := by
      rw [hline, ← List.append_assoc lead, List.append_assoc _ (hash :: rest), List.cons_append]
    rw [htext, dropComment_append hcode (Or.inr ⟨_, rfl⟩), trim_blank_append hlead]

theorem readLine_between {lead tail : Text} (hlead : Blank lead) (line : Text)
    (htail : BlankLine tail) : readLine (lead ++ line ++ tail) = readLine line :=
  readLine_congr (trim_dropComment_between hlead line htail)

theorem readLine_append {tail : Text} (line : Text) (htail : BlankLine tail) :
    readLine (line ++ tail) = readLine line :=
  readLine_between blank_nil line htail

/-! ### Sources -/

/-- Lines that are read alike one by one are assembled alike. -/
theorem assembleLines_congr {ls ls' : List Text}
    (h : List.Forall₂ (fun l l' => readLine l = readLine l') ls ls') (n : Nat) :
    assembleLines n ls = assembleLines n ls' := by
  induction h generalizing n with
  | nil => rfl
  | cons hl _ ih => rw [assembleLines, assembleLines, hl, ih]

/-- `Relaid t u`: the source `u` is `t` with blanks, or blanks and a comment, added at the ends of
    its lines. -/
inductive Relaid : Text → Text → Prop
  | last {l tail : Text} (hl : newline ∉ l) (htail : BlankLine tail) (hline : newline ∉ tail) :
      Relaid l (l ++ tail)
  | line {l tail t u : Text} (hl : newline ∉ l) (htail : BlankLine tail) (hline : newline ∉ tail)
      (h : Relaid t u) : Relaid (l ++ newline :: t) (l ++ tail ++ newline :: u)

theorem Relaid.forall₂_readLine {t u : Text} (h : Relaid t u) :
    List.Forall₂ (fun l l' => readLine l = readLine l')
      (u.splitOn newline) (t.splitOn newline) := by
  induction h with
  | @last l tail hl htail hline =>
    have hboth : newline ∉ l ++ tail := by simp [hl, hline]
    rw [List.splitOn_eq_singleton hl, List.splitOn_eq_singleton hboth]
    exact .cons (readLine_append l htail) .nil
  | @line l tail t u hl htail hline _ ih =>
    have hboth : newline ∉ l ++ tail := by simp [hl, hline]
    rw [List.splitOn_append_cons_self_of_not_mem hl,
      List.splitOn_append_cons_self_of_not_mem hboth]
    exact .cons (readLine_append l htail) ih

theorem Relaid.assemble_eq {t u : Text} (h : Relaid t u) : assemble u = assemble t := by
  rw [assemble, assemble, ← assembleLines_splitOn, ← assembleLines_splitOn,
    assembleLines_congr h.forall₂_readLine]

/-! ### Two ways to lay a source out anew -/

/-- The byte that some systems put in front of a newline. -/
def carriageReturn : UInt8 := 13

/-- A source with a carriage return in front of each newline. -/
def withReturns (source : Text) : Text :=
  source.flatMap fun b => if b = newline then [carriageReturn, newline] else [b]

theorem withReturns_of_notMem : ∀ {l : Text}, newline ∉ l → withReturns l = l
  | [], _ => rfl
  | b :: l, h => by
    have hl := withReturns_of_notMem fun hmem => h (List.mem_cons_of_mem b hmem)
    rw [withReturns] at hl ⊢
    rw [List.flatMap_cons, if_neg fun hb : b = newline => h (hb ▸ List.mem_cons_self), hl]
    rfl

theorem withReturns_line {l : Text} (hl : newline ∉ l) (t : Text) :
    withReturns (l ++ newline :: t) = l ++ [carriageReturn] ++ newline :: withReturns t := by
  have hfront := withReturns_of_notMem hl
  rw [withReturns] at hfront
  simp [withReturns, hfront]

theorem relaid_withReturns (source : Text) : Relaid source (withReturns source) := by
  have hnone : BlankLine [] := ⟨[], [], blank_nil, Or.inl rfl, rfl⟩
  have hreturn : BlankLine [carriageReturn] :=
    ⟨[carriageReturn], [], by simp [Blank, isBlank, carriageReturn], Or.inl rfl, rfl⟩
  induction source using line_induction with
  | last l hl =>
    rw [withReturns_of_notMem hl]
    simpa using Relaid.last hl hnone List.not_mem_nil
  | line l t hl ih =>
    rw [withReturns_line hl]
    exact .line hl hreturn (by decide) ih

/-- A source with `tail k` put at the end of its line `k`, if its first line is line `n`. -/
def withTails (tail : Nat → Text) (n : Nat) : Text → Text
  | [] => tail n
  | b :: t =>
    if b = newline then tail n ++ newline :: withTails tail (n + 1) t
    else b :: withTails tail n t

theorem withTails_append (tail : Nat → Text) (n : Nat) (t : Text) : ∀ {l : Text}, newline ∉ l →
    withTails tail n (l ++ t) = l ++ withTails tail n t
  | [], _ => rfl
  | b :: l, h => by
    have hl := withTails_append tail n t fun hmem => h (List.mem_cons_of_mem b hmem)
    rw [List.cons_append, withTails, if_neg fun hb : b = newline => h (hb ▸ List.mem_cons_self), hl,
      List.cons_append]

theorem relaid_withTails {tail : Nat → Text} (htail : ∀ k, BlankLine (tail k))
    (hline : ∀ k, newline ∉ tail k) (source : Text) (n : Nat) :
    Relaid source (withTails tail n source) := by
  induction source using line_induction generalizing n with
  | last l hl =>
    have hend : withTails tail n l = l ++ tail n := by
      rw [← List.append_nil l, withTails_append tail n _ hl, List.append_nil, withTails]
    rw [hend]
    exact .last hl (htail n) (hline n)
  | line l t hl ih =>
    rw [withTails_append tail n _ hl, withTails, if_pos rfl, ← List.append_assoc]
    exact .line hl (htail n) (hline n) (ih (n + 1))

/-- Layout and comments do not count. Whatever a line is read as, be it an instruction, nothing or
    a complaint, it is read so with blanks added at both ends, and with a comment behind them. So a
    source is assembled into the same program, or turned down for the same cause on the same line,
    if its newlines are replaced by carriage return and newline, or if blanks and a comment without
    newlines are added at the end of any of its lines. -/
theorem layout_does_not_count :
    (∀ lead line trail : Text, Blank lead → Blank trail →
      readLine (lead ++ line ++ trail) = readLine line ∧
      ∀ comment, readLine (lead ++ line ++ trail ++ hash :: comment) = readLine line) ∧
    (∀ source, assemble (withReturns source) = assemble source) ∧
    ∀ (source : Text) (tail : Nat → Text),
      (∀ k, BlankLine (tail k)) → (∀ k, newline ∉ tail k) →
      assemble (withTails tail 1 source) = assemble source := by
  refine ⟨fun lead line trail hlead htrail => ⟨?_, fun comment => ?_⟩, fun source => ?_,
    fun source tail htail hline => ?_⟩
  · exact readLine_between hlead line ⟨trail, [], htrail, Or.inl rfl, by rw [List.append_nil]⟩
  · rw [List.append_assoc _ trail]
    exact readLine_between hlead line ⟨trail, _, htrail, Or.inr ⟨comment, rfl⟩, rfl⟩
  · exact (relaid_withReturns source).assemble_eq
  · exact (relaid_withTails htail hline source 1).assemble_eq

/-- A line with a complaint about its operands, in a comment and among blanks, and a source with
    such a line that is laid out anew in both ways. -/
theorem layout_does_not_count_refused :
    readLine (utf8 "\n\t" ++ utf8 "add R1 R2 # a" ++ utf8 " \r" ++ hash :: utf8 "# b") =
      .error (.unreadable .add (utf8 "R1 R2")) ∧
    assemble (withReturns (utf8 "halt\n\nadd R1 R2\n")) =
      .error { cause := .unreadable .add (utf8 "R1 R2"), line := some 3 } ∧
    ∃ tail : Nat → Text, (∀ k, BlankLine (tail k)) ∧ (∀ k, newline ∉ tail k) ∧
      withTails tail 1 (utf8 "halt\n\nadd R1 R2\n") =
        utf8 "halt\t# c\n\t# c\nadd R1 R2\t# c\n\t# c" ∧
      assemble (withTails tail 1 (utf8 "halt\n\nadd R1 R2\n")) =
        .error { cause := .unreadable .add (utf8 "R1 R2"), line := some 3 } := by
  obtain ⟨hlines, hreturns, htails⟩ := layout_does_not_count
  have hblank : Blank (utf8 "\n\t") ∧ Blank (utf8 " \r") ∧ Blank (utf8 "\t") := by
    simp only [Blank, ← List.all_eq_true]
    decide
  have htail : BlankLine (utf8 "\t# c") :=
    ⟨utf8 "\t", utf8 "# c", hblank.2.2, Or.inr ⟨utf8 " c", by decide⟩, by decide⟩
  have hline : readLine (utf8 "add R1 R2 # a") = .error (.unreadable .add (utf8 "R1 R2")) := by
    decide +kernel
  have hsource : assemble (utf8 "halt\n\nadd R1 R2\n") =
      .error { cause := .unreadable .add (utf8 "R1 R2"), line := some 3 } := by decide +kernel
  have hnewline : newline ∉ utf8 "\t# c" := by decide
  refine ⟨?_, ?_, fun _ => utf8 "\t# c", fun _ => htail, fun _ => hnewline, by decide +kernel, ?_⟩
  · rw [(hlines _ _ _ hblank.1 hblank.2.1).2, hline]
  · rw [hreturns, hsource]
  · rw [htails _ _ (fun _ => htail) (fun _ => hnewline), hsource]

end NibbleMachine
