import Mathlib.Data.List.Forall2
import NibbleMachine.Proofs.Rejections

/-!
A source and its lines. The lines of a source are the pieces between its newlines, and each of them
is read on its own. So a source is read to its end, or one of its lines is the first that cannot be
read and gets the blame, by its number; what stands before a line changes nothing but this number.
-/

namespace NibbleMachine

open Text

/-! ### Rows of lines -/

/-- What the lines of a row are read as, one by one. -/
def Reads (ls : List Text) (founds : List (Option Instruction)) : Prop :=
  List.Forall₂ (fun l found => readLine l = .ok found) ls founds

/-- `Refuses ls front c`: the lines of `front` can be read, and the line behind them cannot. -/
def Refuses (ls front : List Text) (c : Cause) : Prop :=
  (∃ founds, Reads front founds) ∧ ∃ l back, readLine l = .error c ∧ ls = front ++ l :: back

/-- A row of lines is read to its end, or one of its lines is the first that cannot be read. -/
theorem reads_or_refuses (ls : List Text) :
    (∃ founds, Reads ls founds) ∨ ∃ front c, Refuses ls front c := by
  induction ls with
  | nil => exact Or.inl ⟨[], .nil⟩
  | cons l ls ih =>
    cases hl : readLine l with
    | error c => exact Or.inr ⟨[], c, ⟨[], .nil⟩, l, ls, hl, rfl⟩
    | ok found =>
      rcases ih with ⟨founds, hfounds⟩ | ⟨front, c, ⟨founds, hfounds⟩, l', back, hl', rfl⟩
      · exact Or.inl ⟨found :: founds, .cons hl hfounds⟩
      · exact Or.inr ⟨l :: front, c, ⟨found :: founds, .cons hl hfounds⟩, l', back, hl', rfl⟩

variable {ls front : List Text} {founds : List (Option Instruction)} {c : Cause}

theorem Reads.append {ls' : List Text} {founds' : List (Option Instruction)}
    (h : Reads ls founds) (h' : Reads ls' founds') : Reads (ls ++ ls') (founds ++ founds') :=
  List.rel_append h h'

theorem Reads.exists_of_mem (h : Reads ls founds) : ∀ l ∈ ls, ∃ found, readLine l = .ok found := by
  induction h with
  | nil => simp
  | cons hl _ ih => exact List.forall_mem_cons.2 ⟨⟨_, hl⟩, ih⟩

theorem Refuses.append (h : Refuses ls front c) (ls' : List Text) :
    Refuses (ls ++ ls') front c := by
  obtain ⟨hfront, l, back, hl, rfl⟩ := h
  exact ⟨hfront, l, back ++ ls', hl, by rw [List.append_assoc, List.cons_append]⟩

theorem Refuses.behind {ls' : List Text} (h : Refuses ls' front c) (hls : Reads ls founds) :
    Refuses (ls ++ ls') (ls ++ front) c := by
  obtain ⟨⟨founds', hfront⟩, l, back, hl, rfl⟩ := h
  exact ⟨⟨_, hls.append hfront⟩, l, back, hl, by rw [List.append_assoc]⟩

theorem assembleLines_of_reads (h : Reads ls founds) (n : Nat) :
    assembleLines n ls = .ok (founds.flatMap Option.toList) := by
  induction h generalizing n with
  | nil => rfl
  | cons hl _ ih =>
    rw [assembleLines, hl]
    simp only [ih]
    rfl

theorem assembleLines_of_refuses (h : Refuses ls front c) (n : Nat) :
    assembleLines n ls = .error { cause := c, line := some (n + front.length) } := by
  obtain ⟨⟨founds, hfounds⟩, l, back, hl, rfl⟩ := h
  induction hfounds generalizing n with
  | nil =>
    rw [List.nil_append, assembleLines, hl, ← onLine_of_readLine hl]
    rfl
  | cons hfront _ ih =>
    rw [List.cons_append, assembleLines, hfront, List.length_cons, ← Nat.add_assoc,
      Nat.add_right_comm]
    simp only [ih]
    rfl

/-! ### Sources -/

/-- A source may be taken to have an empty line behind a newline at its end. -/
theorem assembleLines_splitOn (n : Nat) (source : Text) :
    assembleLines n (source.splitOn newline) = assembleLines n (lines source) := by
  have hempty : Reads [[]] [none] := .cons rfl .nil
  rcases splitOn_newline source with h | h
  · rw [h]
  · rw [h]
    rcases reads_or_refuses (lines source) with ⟨founds, hread⟩ | ⟨front, c, hrefused⟩
    · rw [assembleLines_of_reads hread, assembleLines_of_reads (hread.append hempty)]
      simp
    · rw [assembleLines_of_refuses hrefused, assembleLines_of_refuses (hrefused.append _)]

theorem assemble_of_reads {source : Text} (h : Reads (source.splitOn newline) founds) :
    assemble source = .ok (founds.flatMap Option.toList).toArray := by
  rw [assemble, ← assembleLines_splitOn, assembleLines_of_reads h]
  rfl

theorem assemble_of_refuses {source : Text} (h : Refuses (source.splitOn newline) front c) :
    assemble source = .error { cause := c, line := some (1 + front.length) } := by
  rw [assemble, ← assembleLines_splitOn, assembleLines_of_refuses h]
  rfl

/-- What assembling a source can come to. -/
inductive AssembleCases (source : Text) : Except Rejection Program → Prop
  | reads {founds : List (Option Instruction)} (h : Reads (source.splitOn newline) founds) :
      AssembleCases source (.ok (founds.flatMap Option.toList).toArray)
  | refuses {front : List Text} {c : Cause} (h : Refuses (source.splitOn newline) front c) :
      AssembleCases source (.error { cause := c, line := some (1 + front.length) })

theorem assemble_cases (source : Text) : AssembleCases source (assemble source) := by
  rcases reads_or_refuses (source.splitOn newline) with ⟨founds, h⟩ | ⟨front, c, h⟩
  · rw [assemble_of_reads h]
    exact .reads h
  · rw [assemble_of_refuses h]
    exact .refuses h

/-- Assembling goes line by line through two sources with a newline between them. What is wrong in
    the first one is wrong in both together, on the same line. If the first one is assembled, what
    is wrong in the second one is wrong in both together, on a line that many further on as there
    are newlines up to the second one. If both are assembled, then so are both together, and the
    instructions of the second one follow those of the first. -/
theorem assemble_append (s t : Text) :
    (∀ r, assemble s = .error r → assemble (s ++ newline :: t) = .error r) ∧
    (∀ p r, assemble s = .ok p → assemble t = .error r → ∃ n, r.line = some n ∧
      assemble (s ++ newline :: t) =
        .error { cause := r.cause, line := some (n + 1 + s.count newline) }) ∧
    ∀ p q, assemble s = .ok p → assemble t = .ok q →
      assemble (s ++ newline :: t) = .ok (p ++ q) := by
  have hsplit : (s ++ newline :: t).splitOn newline = s.splitOn newline ++ t.splitOn newline :=
    List.splitOn_append_cons_self s t
  have hs := assemble_cases s
  have ht := assemble_cases t
  refine ⟨fun r hr => ?_, fun p r hp hr => ?_, fun p q hp hq => ?_⟩
  · rw [hr] at hs
    cases hs with
    | refuses hs =>
      refine assemble_of_refuses ?_
      rw [hsplit]
      exact hs.append _
  · rw [hp] at hs
    rw [hr] at ht
    cases hs with
    | reads hs =>
      cases ht with
      | @refuses front c ht =>
        have hjoint := ht.behind hs
        rw [← hsplit] at hjoint
        have hline : 1 + (s.count newline + 1 + front.length) =
            1 + front.length + 1 + s.count newline := by omega
        refine ⟨1 + front.length, rfl, ?_⟩
        rw [assemble_of_refuses hjoint, List.length_append, length_splitOn_newline, hline]
  · rw [hp] at hs
    rw [hq] at ht
    cases hs with
    | reads hs =>
      cases ht with
      | reads ht =>
        have hjoint := hs.append ht
        rw [← hsplit] at hjoint
        rw [assemble_of_reads hjoint, List.flatMap_append, List.append_toArray]

/-- A source that ends in a newline, with one behind it whose second line is wrong, and what there
    is before that line. -/
theorem assemble_append_blank_lines :
    assemble (utf8 "halt\n\n" ++ newline :: utf8 " # x\nadd R1 R2") =
      .error { cause := .unreadable .add (utf8 "R1 R2"), line := some 5 } ∧
    assemble (utf8 "add R1 R2" ++ newline :: utf8 "halt") =
      .error { cause := .unreadable .add (utf8 "R1 R2"), line := some 1 } ∧
    assemble (utf8 "halt\n\n" ++ newline :: utf8 "halt") =
      .ok #[⟨.halt, [], .halt, 0xF000, utf8 "F000"⟩, ⟨.halt, [], .halt, 0xF000, utf8 "F000"⟩] := by
  let p : Program := #[⟨.halt, [], .halt, 0xF000, utf8 "F000"⟩]
  have hs : assemble (utf8 "halt\n\n") = .ok p := by decide +kernel
  have hq : assemble (utf8 "halt") = .ok p := by decide +kernel
  have hr : assemble (utf8 "add R1 R2") =
      .error { cause := .unreadable .add (utf8 "R1 R2"), line := some 1 } := by decide +kernel
  have ht : assemble (utf8 " # x\nadd R1 R2") =
      .error { cause := .unreadable .add (utf8 "R1 R2"), line := some 2 } := by decide +kernel
  refine ⟨?_, (assemble_append _ _).1 _ hr, (assemble_append _ _).2.2 p p hs hq⟩
  obtain ⟨n, hn, hjoint⟩ := (assemble_append _ _).2.1 p _ hs ht
  obtain rfl : 2 = n := Option.some.inj hn
  exact hjoint

/-! ### Lines by their place -/

/-- `LineOf source before line`: the source has this line, and `before` is all that stands before
    its first byte. The last line may end with the source. -/
def LineOf (source before line : Text) : Prop :=
  newline ∉ line ∧ (before = [] ∨ before.getLast? = some newline) ∧
    ∃ rest, source = before ++ line ++ rest ∧ (rest = [] ∨ rest.head? = some newline)

variable {source before line : Text}

/-- The piece of a source that has so many newlines before it is the line there. -/
theorem LineOf.getElem?_splitOn (h : LineOf source before line) :
    (source.splitOn newline)[before.count newline]? = some line := by
  obtain ⟨hline, hbefore, rest, rfl, hrest⟩ := h
  have hpieces : ∃ back, (line ++ rest).splitOn newline = line :: back := by
    rcases hrest with rfl | hrest
    · exact ⟨[], by rw [List.append_nil, List.splitOn_eq_singleton hline]⟩
    · obtain ⟨rest, rfl⟩ := List.head?_eq_some_iff.1 hrest
      exact ⟨_, List.splitOn_append_cons_self_of_not_mem hline rest⟩
  obtain ⟨back, hback⟩ := hpieces
  rw [List.append_assoc]
  rcases hbefore with rfl | hbefore
  · rw [List.nil_append, hback]
    rfl
  · obtain ⟨front, rfl⟩ := List.getLast?_eq_some_iff.1 hbefore
    have hcount : (front ++ [newline]).count newline = (front.splitOn newline).length := by
      rw [length_splitOn_newline, List.count_append]
      rfl
    rw [List.append_assoc, List.singleton_append, List.splitOn_append_cons_self, hback, hcount]
    simp

theorem exists_lineOf {k : Nat} (h : (source.splitOn newline)[k]? = some line) :
    ∃ before, LineOf source before line ∧ before.count newline = k := by
  induction source using line_induction generalizing k with
  | last l hl =>
    rw [List.splitOn_eq_singleton hl] at h
    cases k with
    | zero =>
      obtain rfl : l = line := Option.some.inj h
      exact ⟨[], ⟨hl, Or.inl rfl, [], by simp, Or.inl rfl⟩, rfl⟩
    | succ k => simp at h
  | line l t hl ih =>
    rw [List.splitOn_append_cons_self_of_not_mem hl] at h
    cases k with
    | zero =>
      obtain rfl : l = line := Option.some.inj h
      exact ⟨[], ⟨hl, Or.inl rfl, newline :: t, rfl, Or.inr rfl⟩, rfl⟩
    | succ k =>
      obtain ⟨before, ⟨hline, hbefore, rest, rfl, hrest⟩, rfl⟩ := ih h
      refine ⟨l ++ newline :: before, ⟨hline, Or.inr ?_, rest, by simp, hrest⟩, ?_⟩
      · rcases hbefore with rfl | hbefore
        · simp
        · simp [List.getLast?_append, List.getLast?_cons, hbefore]
      · rw [List.count_append, List.count_eq_zero.2 hl, List.count_cons_self, Nat.zero_add]

/-- Of two lines, the one that starts further on has more newlines before it. -/
theorem LineOf.count_lt {before' line' : Text} (h : LineOf source before line)
    (h' : LineOf source before' line') (hlt : before'.length < before.length) :
    before'.count newline < before.count newline := by
  obtain ⟨-, hbefore, rest, hsource, -⟩ := h
  obtain ⟨-, -, rest', hsource', -⟩ := h'
  have hstart : before <+: source := ⟨line ++ rest, by rw [hsource, List.append_assoc]⟩
  have hstart' : before' <+: source := ⟨line' ++ rest', by rw [hsource', List.append_assoc]⟩
  obtain ⟨more, rfl⟩ := List.prefix_of_prefix_length_le hstart' hstart (Nat.le_of_lt hlt)
  have hmore : more ≠ [] := by
    rintro rfl
    simp at hlt
  -- the text before a line ends in a newline, so what is more of it does
  have hlast : more.getLast? = some newline := by
    rcases hbefore with hbefore | hbefore
    · exact absurd (List.append_eq_nil_iff.1 hbefore).2 hmore
    · rwa [List.getLast?_append_of_ne_nil _ hmore] at hbefore
  have hpos := List.count_pos_iff.2 (List.mem_of_getLast? hlast)
  rw [List.count_append]
  omega

/-- The first line of a source that cannot be read, and why. -/
def FirstRefused (source before line : Text) (c : Cause) : Prop :=
  LineOf source before line ∧ readLine line = .error c ∧
    ∀ before' line', LineOf source before' line' → before'.length < before.length →
      ∃ found, readLine line' = .ok found

theorem Refuses.exists_firstRefused (h : Refuses (source.splitOn newline) front c) :
    ∃ before line, FirstRefused source before line c ∧ before.count newline = front.length := by
  obtain ⟨⟨founds, hfront⟩, l, back, hl, hsplit⟩ := h
  have hat : (source.splitOn newline)[front.length]? = some l := by simp [hsplit]
  obtain ⟨before, hbefore, hcount⟩ := exists_lineOf hat
  refine ⟨before, l, ⟨hbefore, hl, fun before' line' h' hlt => ?_⟩, hcount⟩
  have hlt' := hbefore.count_lt h' hlt
  have hat' := h'.getElem?_splitOn
  rw [hcount] at hlt'
  rw [hsplit, List.getElem?_append_left hlt'] at hat'
  exact hfront.exists_of_mem line' (List.mem_of_getElem? hat')

/-- A line of a source that is read to its end can be read. -/
theorem Reads.exists_of_lineOf (h : Reads (source.splitOn newline) founds)
    (hline : LineOf source before line) : ∃ found, readLine line = .ok found :=
  h.exists_of_mem line (List.mem_of_getElem? hline.getElem?_splitOn)

/-! ### Lines with an instruction -/

/-- Whether there is more on a line than blanks and a comment. -/
def hasCode (line : Text) : Bool := !(dropComment line).all isBlank

theorem hasCode_eq_false_iff {line : Text} : hasCode line = false ↔ readLine line = .ok none := by
  rw [readLine_eq_none_iff, hasCode, Bool.not_eq_false', List.all_eq_true]
  constructor
  · intro h
    obtain ⟨comment, hcomment, hline⟩ := exists_comment line
    exact ⟨dropComment line, comment, h, hcomment, hline⟩
  · rintro ⟨blanks, comment, hblanks, hcomment, rfl⟩
    rwa [dropComment_append (hash_notMem_of_blank hblanks) hcomment]

/-- The instructions of a row of lines are those on its lines with code, one on each. -/
theorem Reads.forall₂_hasCode (h : Reads ls founds) :
    List.Forall₂ (fun l i => readLine l = .ok (some i)) (ls.filter hasCode)
      (founds.flatMap Option.toList) := by
  induction h with
  | nil => exact .nil
  | @cons l found ls founds hl _ ih =>
    cases found with
    | none =>
      rw [List.filter_cons_of_neg (by simp [hasCode_eq_false_iff.2 hl])]
      exact ih
    | some i =>
      have hcode : hasCode l = true := by
        rw [← Bool.not_eq_false, hasCode_eq_false_iff, hl]
        simp
      rw [List.filter_cons_of_pos hcode]
      exact .cons hl ih

/-- Rejections point at the right line. A source is turned down exactly if one of its lines cannot
    be read. The rejection has the cause of the first such line and names it by its number, one more
    than there are newlines before it; what it shows of this ends at a zero byte. A source that is
    assembled has one instruction for each line with code, in the order of the lines. -/
theorem assemble_blames_first_line (source : Text) :
    ((∃ r, assemble source = .error r) ↔
      ∃ before line c, LineOf source before line ∧ readLine line = .error c) ∧
    (∀ r, assemble source = .error r → ∃ before line, FirstRefused source before line r.cause ∧
      r.line = some (1 + before.count newline) ∧
      r.message = untilNul (utf8 "linea " ++ decimal (1 + before.count newline) ++ utf8 ": "
        ++ r.cause.detail)) ∧
    ∀ p, assemble source = .ok p →
      List.Forall₂ (fun line i => readLine line = .ok (some i))
        ((source.splitOn newline).filter hasCode) p.toList := by
  have hcases := assemble_cases source
  generalize assemble source = result at hcases ⊢
  cases hcases with
  | reads h =>
    refine ⟨iff_of_false (by simp) ?_, by simp, ?_⟩
    · rintro ⟨before, line, c, hline, hc⟩
      obtain ⟨found, hfound⟩ := h.exists_of_lineOf hline
      rw [hc] at hfound
      contradiction
    · intro p hp
      rw [← Except.ok.inj hp]
      exact h.forall₂_hasCode
  | refuses h =>
    obtain ⟨before, line, hfirst, hcount⟩ := h.exists_firstRefused
    refine ⟨iff_of_true ⟨_, rfl⟩ ⟨before, line, _, hfirst.1, hfirst.2.1⟩, ?_, by simp⟩
    intro r hr
    rw [← Except.error.inj hr, ← hcount]
    exact ⟨before, line, hfirst, rfl, rfl⟩

/-- A zero byte on a line that cannot be read cuts the complaint off: it should go on with the zero
    and what stands behind it. -/
theorem message_cut_at_zero :
    ∃ r : Rejection, assemble [0, 120] = .error r ∧ r.line = some 1 ∧
      r.cause.detail = utf8 "No se pudo leer el nombre de instrucción en: " ++ [0, 120] ∧
      r.message ≠ utf8 "linea 1: " ++ r.cause.detail ∧
      r.message = utf8 "linea 1: No se pudo leer el nombre de instrucción en: " := by
  refine ⟨{ cause := .noMnemonic [0, 120], line := some 1 }, ?_, rfl, ?_, ?_, ?_⟩ <;> decide +kernel

/-- Two lines that cannot be read, of which the first is to blame, and a source with blank lines. -/
theorem assemble_blames_first_line_of_two :
    (∃ r before line, assemble (utf8 "halt\n\n # c\nadd R1 R2\nfoo") = .error r ∧
      FirstRefused (utf8 "halt\n\n # c\nadd R1 R2\nfoo") before line
        (.unreadable .add (utf8 "R1 R2")) ∧
      some 4 = some (1 + before.count newline) ∧
      r.message = untilNul (utf8 "linea " ++ decimal (1 + before.count newline) ++ utf8 ": "
        ++ r.cause.detail)) ∧
    ∃ p, assemble (utf8 "halt # x\n\n readm 1\n") = .ok p ∧
      List.Forall₂ (fun line i => readLine line = .ok (some i))
        [utf8 "halt # x", utf8 " readm 1"] p.toList := by
  let r : Rejection := { cause := .unreadable .add (utf8 "R1 R2"), line := some 4 }
  let p : Program := #[⟨.halt, [], .halt, 0xF000, utf8 "F000"⟩,
    ⟨.readm, [1], .readm 1, 0x7001, utf8 "7001"⟩]
  have hr : assemble (utf8 "halt\n\n # c\nadd R1 R2\nfoo") = .error r := by decide +kernel
  have hp : assemble (utf8 "halt # x\n\n readm 1\n") = .ok p := by decide +kernel
  obtain ⟨before, line, hfirst, hline, htext⟩ := (assemble_blames_first_line _).2.1 r hr
  have hcode := (assemble_blames_first_line _).2.2 p hp
  have hlines : ((utf8 "halt # x\n\n readm 1\n").splitOn newline).filter hasCode =
      [utf8 "halt # x", utf8 " readm 1"] := by decide +kernel
  rw [hlines] at hcode
  exact ⟨⟨r, before, line, hr, hfirst, hline, htext⟩, p, hp, hcode⟩

end NibbleMachine
