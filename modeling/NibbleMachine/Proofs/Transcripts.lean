import NibbleMachine.Proofs.Calls
import NibbleMachine.Proofs.Dialogues
import NibbleMachine.Proofs.Dumps
import NibbleMachine.Proofs.Frame

/-!
What a transcript shows of the registers. Behind the announcement of each step that is made stands
the line of the one register that it has changed, or a line that says that there is none. All other
events tell of a session as it stands. So the registers at the end are those at the beginning with
the changes of the transcript put in one after the other; a step that fails changes none. And the
lines of changes can be told from all other lines: the line of a register in a dump has a space
behind the number, and what is typed in at the prompt is not printed.
-/

namespace NibbleMachine

open Text

/-! ### Changes of registers -/

/-- A register and the value that it takes. -/
structure Change where
  register : Nat
  value : Value
  deriving DecidableEq, Repr

/-- Registers after a row of changes. -/
def replay (registers : Vector Value 16) (changes : List Change) : Vector Value 16 :=
  changes.foldl (fun registers c => registers.setIfInBounds c.register c.value) registers

/-- The line of a register that has changed, without its newline. -/
def changeLine (r : Nat) (before after : Value) : Text :=
  utf8 "  R" ++ decimal r ++ utf8 ": " ++ signed before.toInt ++ utf8 " -> " ++ signed after.toInt

/-- `ChangesShown before after changes text`: the registers before and after a step differ in the
    given changes, which are one or none, and the text shows them. -/
inductive ChangesShown (before after : Vector Value 16) : List Change → Text → Prop
  | none (h : before = after) :
      ChangesShown before after [] (utf8 "  (sin cambios en registros)\n")
  | one {r : Nat} (hr : r < 16) (hne : before[r] ≠ after[r])
      (hsame : ∀ (q : Nat) (_ : q < 16), q ≠ r → before[q] = after[q]) :
      ChangesShown before after [⟨r, after[r]⟩] (changeLine r before[r] after[r] ++ [newline])

theorem replay_append (registers : Vector Value 16) (cs ds : List Change) :
    replay registers (cs ++ ds) = replay (replay registers cs) ds := List.foldl_append

variable {before after : Vector Value 16}

/-- Registers that agree but for one are these registers with that one set. -/
theorem set_eq_of_agree {r : Nat} (hr : r < 16)
    (hsame : ∀ (q : Nat) (_ : q < 16), q ≠ r → before[q] = after[q]) :
    before.set r after[r] = after := by
  refine Vector.ext fun q hq => ?_
  rw [Vector.getElem_set]
  split
  · rename_i h
    subst h
    rfl
  · rename_i h
    exact hsame q hq (Ne.symm h)

theorem ChangesShown.replay {changes : List Change} {text : Text}
    (h : ChangesShown before after changes text) : replay before changes = after := by
  cases h with
  | none h => exact h
  | one hr hne hsame =>
    rw [NibbleMachine.replay, List.foldl_cons, List.foldl_nil, ← Machine.set_eq_setIfInBounds _ hr]
    exact set_eq_of_agree hr hsame

theorem Report.write_changeItems (r : Nat) (b a : Value) : ({} : Style).write (changeItems r b a) =
    ({}, if b = a then [] else changeLine r b a ++ [newline]) := by
  rw [changeItems]
  split
  · rfl
  · simp [Style.put, Style.pad, Style.valueText, say, changeLine, decimal, utf8_newline]

theorem Report.text_change (r : Nat) (b a : Value) : (Report.change r b a).text =
    if b = a then [] else changeLine r b a ++ [newline] := by
  rw [Report.text, Report.print, Report.items, Report.write_changeItems]

/-- The lines of the values that differ in two rows, of which the first has the index `k`. -/
def changeLines (k : Nat) (bs as : List Value) : Text :=
  ((bs.zip as).zipIdx k).flatMap fun entry => (Report.change entry.2 entry.1.1 entry.1.2).text

theorem changeLines_self : ∀ (k : Nat) (vs : List Value), changeLines k vs vs = []
  | _, [] => rfl
  | k, v :: vs => by
    have ih := changeLines_self (k + 1) vs
    rw [changeLines] at ih ⊢
    rw [List.zip_cons_cons, List.zipIdx_cons, List.flatMap_cons, ih, Report.text_change, if_pos rfl,
      List.append_nil]

/-- Rows that differ in one place have one line. -/
theorem changeLines_middle {b a : Value} (hne : b ≠ a) (vs ws : List Value) :
    changeLines 0 (vs ++ b :: ws) (vs ++ a :: ws) = changeLine vs.length b a ++ [newline] := by
  have hfront := changeLines_self 0 vs
  have hback := changeLines_self (vs.length + 1) ws
  rw [changeLines] at hfront hback ⊢
  rw [List.zip_append rfl, List.zipIdx_append, List.flatMap_append, hfront, List.zip_cons_cons,
    List.zipIdx_cons, List.flatMap_cons, List.length_zip, Nat.min_self, Nat.zero_add, hback,
    Report.text_change, if_neg hne, List.append_nil, List.nil_append]

theorem toList_set_eq {r : Nat} (hr : r < 16) (registers : Vector Value 16) (v : Value) :
    (registers.set r v).toList =
      registers.toList.take r ++ v :: registers.toList.drop (r + 1) := by
  rw [Vector.toList_set, List.set_eq_take_append_cons_drop, if_pos (by simpa using hr)]

theorem changeLines_of_agree {r : Nat} (hr : r < 16) (hne : before[r] ≠ after[r])
    (hsame : ∀ (q : Nat) (_ : q < 16), q ≠ r → before[q] = after[q]) :
    changeLines 0 before.toList after.toList = changeLine r before[r] after[r] ++ [newline] := by
  have hbefore := toList_set_eq hr before before[r]
  have hafter := toList_set_eq hr before after[r]
  have hlen : (before.toList.take r).length = r := List.length_take_of_le (by simpa using hr.le)
  have hlines := changeLines_middle hne (before.toList.take r) (before.toList.drop (r + 1))
  rw [Vector.set_getElem_self] at hbefore
  rw [set_eq_of_agree hr hsame] at hafter
  rwa [← hbefore, ← hafter, hlen] at hlines

/-- If at most one register has changed, this is what is shown. -/
theorem changesShown_changesText {written : Option Nat}
    (h : ∀ (q : Nat) (_ : q < 16), written ≠ some q → before[q] = after[q]) :
    ∃ changes, ChangesShown before after changes (Event.changesText before after) := by
  have htext : Event.changesText before after =
      if (changeLines 0 before.toList after.toList).isEmpty
      then utf8 "  (sin cambios en registros)\n"
      else changeLines 0 before.toList after.toList := rfl
  rw [htext]
  by_cases heq : before = after
  · rw [heq, changeLines_self, List.isEmpty_nil, if_pos rfl]
    exact ⟨[], .none rfl⟩
  · obtain ⟨r, hr, hne⟩ : ∃ (r : Nat) (_ : r < 16), before[r] ≠ after[r] := by
      by_contra hall
      push Not at hall
      exact heq (Vector.ext hall)
    have hwritten : written = some r := by
      by_contra hnot
      exact hne (h r hr hnot)
    have hsame : ∀ (q : Nat) (_ : q < 16), q ≠ r → before[q] = after[q] := by
      intro q hq hqr
      refine h q hq fun hq' => hqr ?_
      exact Option.some.inj (hq'.symm.trans hwritten)
    rw [changeLines_of_agree hr hne hsame, if_neg (by simp)]
    exact ⟨_, .one hr hne hsame⟩

/-! ### Transcripts -/

/-- What is told of a step from `s` to `t` that has carried out the instruction `i`: its number, the
    instruction, what has changed, and where the program goes on. -/
def stepText (s : Session) (i : Instruction) (shown : Text) (t : Session) : Text :=
  utf8 "\n===== STEP " ++ decimal s.steps.toNat ++ utf8 " =====\n"
    ++ (decimal s.machine.pc).leftpad 4 space ++ utf8 "  " ++ i.hex ++ utf8 "  " ++ i.source
    ++ utf8 "\n" ++ shown ++ utf8 "  pc=" ++ decimal t.machine.pc ++ utf8 "\n"

theorem Event.text_upcoming (steps : UInt64) (pc : Nat) (i : Instruction) :
    (Event.upcoming steps pc i).text = utf8 "\n===== STEP " ++ decimal steps.toNat
      ++ utf8 " =====\n" ++ (decimal pc).leftpad 4 space ++ utf8 "  " ++ i.hex ++ utf8 "  "
      ++ i.source ++ utf8 "\n" := by
  rw [Event.text, Report.text, Report.print, Report.items, Report.write_instructionItems]
  simp only [List.append_assoc, Report.utf8_newline]

theorem stepText_eq (s : Session) (i : Instruction) (shown : Text) (t : Session) :
    stepText s i shown t = (Event.upcoming s.steps s.machine.pc i).text
      ++ (shown ++ (utf8 "  pc=" ++ decimal t.machine.pc ++ utf8 "\n")) := by
  rw [Event.text_upcoming, stepText]
  simp only [List.append_assoc]

/-- `Transcript s text changes t`: the text tells how steps have led from the session `s` to `t`,
    and shows these changes of registers. What it holds besides the steps tells of the session
    between two of them. -/
inductive Transcript : Session → Text → List Change → Session → Prop
  | nil (s : Session) : Transcript s [] [] s
  | aside {s t : Session} {e : Event} {text : Text} {changes : List Change} (he : e.About s)
      (h : Transcript s text changes t) : Transcript s (e.text ++ text) changes t
  | step {s u t : Session} {i : Instruction} {made changes : List Change} {shown text : Text}
      (hnext : s.next? = some i) (hstep : s.step = .ok true u)
      (hshown : ChangesShown s.machine.registers u.machine.registers made shown)
      (h : Transcript u text changes t) :
      Transcript s (stepText s i shown u ++ text) (made ++ changes) t

/-- The changes that are shown lead from the registers at the beginning to those at the end. -/
theorem Transcript.replay {s t : Session} {text : Text} {changes : List Change}
    (h : Transcript s text changes t) :
    NibbleMachine.replay s.machine.registers changes = t.machine.registers := by
  induction h with
  | nil s => rfl
  | aside _ _ ih => exact ih
  | step _ _ hshown _ ih => rw [replay_append, hshown.replay, ih]

/-! ### Dialogues tell what they do -/

/-- Where a dialogue stands whose last step that was made has led to `t`. -/
def Progress.LeftAt (t : Session) : Progress → Prop
  | .going u | .over u => u = t
  | .broken u f => t.step = .error f u

namespace Session

variable {s : Session}

/-- An instruction that is carried out changes one register at most. -/
theorem changesShown_carry (o : Operation) (s : Session) :
    ∃ changes, ChangesShown s.machine.registers (s.carry o).machine.registers changes
      (Event.changesText s.machine.registers (s.carry o).machine.registers) := by
  refine changesShown_changesText fun q hq (hnot : o.destination? ≠ some q) => ?_
  have hreg : (s.carry o).machine.reg q = s.machine.reg q := Operation.reg_effect hnot
  rw [← Machine.reg_of_lt hq, ← Machine.reg_of_lt hq, hreg]

/-- What the events of a dialogue print is a transcript of its steps. -/
theorem Held.transcript {events : List Event} {progress : Progress} (h : Held s events progress) :
    ∃ changes t, Transcript s (events.flatMap Event.text) changes t ∧ progress.LeftAt t := by
  induction h with
  | going s => exact ⟨[], s, .nil s, rfl⟩
  | ended s => exact ⟨[], s, .nil s, rfl⟩
  | @broken s t i f hnext hstep => exact ⟨[], s, .aside ⟨rfl, rfl, hnext⟩ (.nil s), hstep⟩
  | aside he _ ih =>
    obtain ⟨changes, t, htold, hleft⟩ := ih
    exact ⟨changes, t, .aside he htold, hleft⟩
  | @step s u i events progress hnext hstep _ ih =>
    obtain ⟨changes, t, htold, hleft⟩ := ih
    have hcases := step_cases s
    rw [hstep] at hcases
    cases hcases with
    | made hnext' =>
      obtain rfl := Option.some.inj (hnext.symm.trans hnext')
      obtain ⟨made, hshown⟩ := changesShown_carry i.operation s
      refine ⟨made ++ changes, t, ?_, hleft⟩
      have hstepped := Transcript.step hnext hstep hshown htold
      simpa only [List.flatMap_cons, stepText_eq, Event.text, List.append_assoc] using hstepped

end Session

/-! ### Reading the changes -/

/-- The number that digits spell, with or without a minus sign before them. -/
def signedNumber (t : Text) : Int :=
  if t.head? = some 45 then -(spelled .decimal t.tail : Int) else spelled .decimal t

/-- The change that a line shows, if it is the line of a register that has changed. -/
def changeOf? (line : Text) : Option Change := do
  let t ← (utf8 "  R").isPrefixOf? line
  let u ← (utf8 ": ").isPrefixOf? (t.dropWhile isDigit)
  -- the new value stands behind the head of the arrow and a space
  let value := (u.dropWhile (· != 62)).drop 2
  return { register := spelled .decimal (t.takeWhile isDigit),
           value := Int64.ofInt (signedNumber value) }

/-- The changes that the lines of a text show. -/
def shownChanges (t : Text) : List Change := (lines t).filterMap changeOf?

theorem signedNumber_signed (i : Int) : signedNumber (signed i) = i := by
  rw [signed]
  split
  · have habs := (numeral_decimal i.natAbs).spelled
    rw [signedNumber, List.head?_cons, if_pos rfl, List.tail_cons, habs]
    omega
  · have habs := (numeral_decimal i.natAbs).spelled
    have hhead : (decimal i.natAbs).head? ≠ some 45 := by
      intro h
      exact notMem_decimal (by decide) _ (List.mem_of_head? h)
    rw [signedNumber, if_neg hhead, habs]
    omega

theorem isPrefixOf?_append (t u : Text) : t.isPrefixOf? (t ++ u) = some u :=
  List.isPrefixOf?_eq_some_iff_append_eq.2 rfl

theorem changeOf?_changeLine (r : Nat) (b a : Value) :
    changeOf? (changeLine r b a) = some ⟨r, a⟩ := by
  have hline : changeLine r b a = utf8 "  R" ++ (decimal r ++ (utf8 ": "
      ++ (signed b.toInt ++ utf8 " -" ++ 62 :: space :: signed a.toInt))) := by
    have harrow : utf8 " -> " = utf8 " -" ++ [62, space] := rfl
    simp [changeLine, harrow]
  have hstop : ∀ t, Stops isDigit (utf8 ": " ++ t) := fun t => stops_cons.2 (by decide)
  -- neither the old value nor the shaft of the arrow holds a `>`
  have hvalue : (signed b.toInt ++ utf8 " -" ++ 62 :: space :: signed a.toInt).dropWhile
      (· != 62) = 62 :: space :: signed a.toInt := by
    have hsigned : 62 ∉ signed b.toInt := notMem_signed (by decide) (by decide) _
    have hshaft : 62 ∉ utf8 " -" := by decide
    refine dropWhile_run (fun c hc => ?_) (stops_cons.2 (by decide))
    rw [bne_iff_ne]
    rintro rfl
    exact List.not_mem_append hsigned hshaft hc
  have hdigits := (numeral_decimal r).digit
  simp only [changeOf?, hline, isPrefixOf?_append, Option.bind_eq_bind, Option.bind_some,
    Option.pure_def, takeWhile_run hdigits (hstop _), dropWhile_run hdigits (hstop _), hvalue,
    (numeral_decimal r).spelled, List.drop_succ_cons, List.drop_zero, signedNumber_signed,
    Int64.ofInt_toInt]

/-- Only a line that starts with two spaces and an `R` can show a change. -/
theorem changeOf?_eq_none {l : Text} (h : ¬ utf8 "  R" <+: l) : changeOf? l = none := by
  have hfront : (utf8 "  R").isPrefixOf? l = none := by
    rw [Option.eq_none_iff_forall_not_mem]
    intro t ht
    exact h ⟨t, List.isPrefixOf?_eq_some_iff_append_eq.1 ht⟩
  rw [changeOf?, hfront]
  rfl

theorem changeOf?_of_stops {l : Text} (h : Stops (· == space) l) : changeOf? l = none := by
  refine changeOf?_eq_none ?_
  rintro ⟨t, rfl⟩
  exact absurd (stops_cons.1 h) (by decide)

theorem changeOf?_of_third {l : Text} (h : l[2]? ≠ some Shape.registerMark) :
    changeOf? l = none := by
  refine changeOf?_eq_none ?_
  rintro ⟨t, rfl⟩
  exact h rfl

/-- In a dump the number of a register is followed by a space, not by a colon. -/
theorem changeOf?_registerLine (r : Nat) (v : Value) : changeOf? (registerLine r v) = none := by
  obtain ⟨k, rest, hline⟩ : ∃ k rest, registerLine r v =
      utf8 "  R" ++ (decimal r ++ (List.replicate k space ++ utf8 " " ++ rest)) := by
    have hequals : utf8 " = " = utf8 " " ++ utf8 "= " := rfl
    refine ⟨2 - (decimal r).length, utf8 "= " ++ signed v.toInt ++ bitsText v, ?_⟩
    simp [registerLine, List.rightpad, hequals]
  have hspace : ∀ {p : UInt8 → Bool}, p space = false →
      Stops p (List.replicate k space ++ utf8 " " ++ rest) := by
    intro p hp
    cases k with
    | zero => exact stops_cons.2 hp
    | succ k => exact stops_cons.2 hp
  have hcolon : (utf8 ": ").isPrefixOf? (List.replicate k space ++ utf8 " " ++ rest) = none := by
    rw [Option.eq_none_iff_forall_not_mem]
    intro t ht
    have hstop : Stops (· == 58) (utf8 ": " ++ t) := by
      rw [List.isPrefixOf?_eq_some_iff_append_eq.1 ht]
      exact hspace (by decide)
    exact absurd (stops_cons.1 hstop) (by decide)
  simp only [changeOf?, hline, isPrefixOf?_append, Option.bind_eq_bind, Option.bind_some,
    dropWhile_run (numeral_decimal r).digit (hspace (by decide)), hcolon, Option.bind_none]

/-- In a listing the first thing that is not a space is a digit. -/
theorem changeOf?_listingLine (entry : Instruction × Nat) :
    changeOf? (listingLine entry) = none := by
  obtain ⟨i, n⟩ := entry
  refine changeOf?_eq_none ?_
  rintro ⟨t, ht⟩
  have hdigits : ∀ rest, Stops (· == space) (decimal n ++ rest) := fun rest =>
    (numeral_decimal n).stops_space
  have hstop : Stops (· == Shape.registerMark)
      ((utf8 "  R" ++ t).dropWhile (· == space)) := by
    rw [ht, listingLine, List.leftpad]
    simp only [List.append_assoc]
    rw [dropWhile_run (by simp) (hdigits _)]
    obtain ⟨b, ds, hds⟩ := List.exists_cons_of_ne_nil (numeral_decimal n).ne_nil
    have hb := (numeral_decimal n).digit b (by simp [hds])
    rw [hds, List.cons_append, stops_cons, beq_eq_false_iff_ne]
    rintro rfl
    exact absurd hb (by decide)
  exact absurd (stops_cons.1 hstop) (by decide)

/-! ### What else a transcript holds shows no change -/

/-- A text that shows no change, whatever follows it. -/
def Silent (t : Text) : Prop := ∀ u, shownChanges (t ++ u) = shownChanges u

theorem shownChanges_line {l : Text} (hl : newline ∉ l) (t : Text) :
    shownChanges (l ++ [newline] ++ t) = (changeOf? l).toList ++ shownChanges t := by
  rw [List.append_assoc, List.singleton_append, shownChanges, lines_append_newline hl,
    List.filterMap_cons]
  cases changeOf? l <;> rfl

theorem silent_line {l : Text} (hl : newline ∉ l) (h : changeOf? l = none) :
    Silent (l ++ [newline]) := by
  intro t
  rw [shownChanges_line hl, h, Option.toList_none, List.nil_append]

theorem Silent.append {t u : Text} (ht : Silent t) (hu : Silent u) : Silent (t ++ u) := by
  intro v
  rw [List.append_assoc, ht, hu]

theorem silent_rows : ∀ {ls : List Text}, (∀ l ∈ ls, newline ∉ l ∧ changeOf? l = none) →
    Silent (ls.flatMap (· ++ [newline]))
  | [], _ => fun _ => rfl
  | l :: ls, h => by
    have hline := silent_line (h l (by simp)).1 (h l (by simp)).2
    rw [List.flatMap_cons]
    exact hline.append (silent_rows fun l' hl' => h l' (List.mem_cons_of_mem l hl'))

-- a string is taken as its characters, since it takes long to get them from its bytes
theorem utf8_ofList (cs : List Char) :
    utf8 (String.ofList cs) = cs.flatMap String.utf8EncodeChar := by
  rw [utf8, String.toList_ofList]

theorem stops_literal {c : Char} {cs : List Char}
    (h : (String.utf8EncodeChar c).head?.any (· != space) = true) (t : Text) :
    Stops (· == space) (utf8 (String.ofList (c :: cs)) ++ t) := by
  obtain ⟨b, hb, hne⟩ := (Option.any_eq_true _ _).1 h
  obtain ⟨bs, hbs⟩ := List.head?_eq_some_iff.1 hb
  rw [utf8_ofList, List.flatMap_cons, hbs, List.append_assoc, List.cons_append, stops_cons]
  simpa using hne

/-- If a string ends in a newline, and none of its lines shows a change, it is silent. -/
theorem silent_literal {cs : List Char}
    (hlines : (lines (cs.flatMap String.utf8EncodeChar)).flatMap (· ++ [newline]) =
      cs.flatMap String.utf8EncodeChar)
    (h : ((lines (cs.flatMap String.utf8EncodeChar)).all fun l =>
      !l.contains newline && (changeOf? l).isNone) = true) :
    Silent (utf8 (String.ofList cs)) := by
  rw [utf8_ofList, ← hlines]
  refine silent_rows fun l hl => ?_
  simpa using List.all_eq_true.1 h l hl

theorem silent_dumps (m : Machine) :
    Silent m.registersDump ∧ Silent (m.memoryDump ++ m.outputDump) := by
  rw [Machine.registersDump_eq, Machine.memoryDump_eq, Machine.outputDump_eq]
  refine ⟨silent_rows fun l hl => ?_,
    (silent_rows fun l hl => ?_).append (silent_rows fun l hl => ?_)⟩
  · rcases List.mem_cons.1 hl with rfl | hl
    · exact ⟨by decide, by decide⟩
    · refine ⟨(Machine.indented_registerLines l hl).2, ?_⟩
      obtain ⟨⟨v, r⟩, -, rfl⟩ := List.mem_map.1 hl
      exact changeOf?_registerLine r v
  · rcases List.mem_cons.1 hl with rfl | hl
    · exact ⟨by decide, by decide⟩
    · refine ⟨(Machine.indented_cellLines l hl).2, changeOf?_of_third ?_⟩
      rw [Machine.cellLines] at hl
      split at hl
      · obtain rfl := List.mem_singleton.1 hl
        decide
      · obtain ⟨a, -, rfl⟩ := List.mem_map.1 hl
        exact (by decide : some (91 : UInt8) ≠ some Shape.registerMark)
  · rcases List.mem_cons.1 hl with rfl | hl
    · exact ⟨by decide, by decide⟩
    · refine ⟨(Machine.indented_outputLines l hl).2, changeOf?_of_third ?_⟩
      rw [Machine.outputLines] at hl
      split at hl
      · obtain rfl := List.mem_singleton.1 hl
        decide
      · obtain ⟨⟨v, t⟩, -, rfl⟩ := List.mem_map.1 hl
        exact (by decide : some (116 : UInt8) ≠ some Shape.registerMark)

theorem silent_upcoming (steps : UInt64) (pc : Nat) {i : Instruction} (h : newline ∉ i.hex) :
    Silent (Event.upcoming steps pc i).text := by
  have htext : (Event.upcoming steps pc i).text = [] ++ [newline]
      ++ (utf8 "===== STEP " ++ decimal steps.toNat ++ utf8 " =====" ++ [newline])
      ++ (listingLine (i, pc) ++ [newline]) := by
    have hopen : utf8 "\n===== STEP " = newline :: utf8 "===== STEP " := rfl
    have hclose : utf8 " =====\n" = utf8 " =====" ++ [newline] := rfl
    simp [Event.text_upcoming, listingLine, hopen, hclose, Report.utf8_newline]
  have hnumber : newline ∉ utf8 "===== STEP " ++ decimal steps.toNat ++ utf8 " =====" := by
    have hopen : newline ∉ utf8 "===== STEP " := by decide
    have hclose : newline ∉ utf8 " =====" := by decide
    simp [hopen, hclose, notMem_decimal (b := newline) (by decide)]
  rw [htext]
  refine ((silent_line List.not_mem_nil rfl).append (silent_line hnumber ?_)).append
    (silent_line (newline_notMem_listingLine h) (changeOf?_listingLine _))
  exact changeOf?_of_stops (stops_cons.2 (by decide))

theorem silent_closing (steps : UInt64) (halted : Bool) :
    Silent (Event.closing steps halted).text := by
  have htext : (Event.closing steps halted).text = [] ++ [newline]
      ++ (utf8 "[Stepping] Terminado (pasos=" ++ decimal steps.toNat ++ utf8 ", halt="
        ++ utf8 (if halted then "true" else "false") ++ utf8 ")." ++ [newline]) := by
    have hopen : utf8 "\n[Stepping] Terminado (pasos=" =
      newline :: utf8 "[Stepping] Terminado (pasos=" := rfl
    have hclose : utf8 ").\n" = utf8 ")." ++ [newline] := rfl
    simp [Event.text, hopen, hclose]
  rw [htext]
  refine (silent_line List.not_mem_nil rfl).append (silent_line ?_ ?_)
  · have hopen : newline ∉ utf8 "[Stepping] Terminado (pasos=" := by decide
    have hhalt : newline ∉ utf8 ", halt=" ++ utf8 (if halted then "true" else "false")
        ++ utf8 ")." := by cases halted <;> decide
    rw [List.append_assoc, List.append_assoc, List.append_assoc]
    refine List.not_mem_append hopen (List.not_mem_append (notMem_decimal (by decide) _) ?_)
    rwa [← List.append_assoc]
  · exact changeOf?_of_stops (stops_cons.2 (by decide))

/-- What stands on the line before a text that does not start with a space shows no change, and
    takes none away. -/
theorem shownChanges_of_stops {w t : Text} (hne : w ≠ []) (hnewline : newline ∉ w)
    (hw : Stops (· == space) w) (ht : Stops (· == space) t) :
    shownChanges (w ++ t) = shownChanges t := by
  have hfront : ∀ l, changeOf? (w ++ l) = none := by
    intro l
    obtain ⟨b, w, rfl⟩ := List.exists_cons_of_ne_nil hne
    have hb := stops_cons.1 hw
    exact changeOf?_of_stops (stops_cons.2 hb)
  induction t using line_induction with
  | last l hl =>
    rw [shownChanges, lines_eq_singleton (List.not_mem_append hnewline hl) (by simp [hne])]
    by_cases hnil : l = []
    · simpa [shownChanges, hnil] using hfront []
    · simp [shownChanges, lines_eq_singleton hl hnil, hfront, changeOf?_of_stops ht]
  | line l t hl _ =>
    rw [← List.append_assoc, shownChanges, shownChanges, lines_append_newline hl,
      lines_append_newline (List.not_mem_append hnewline hl), List.filterMap_cons_none (hfront l),
      List.filterMap_cons_none (changeOf?_of_stops ht.of_append)]

theorem shownChanges_prompt (steps : UInt64) (pc : Nat) {t : Text} (ht : Stops (· == space) t) :
    shownChanges ((Event.prompt steps pc).text ++ t) = shownChanges t := by
  have htext : (Event.prompt steps pc).text = [] ++ [newline] ++ (utf8 "[step "
      ++ decimal steps.toNat ++ utf8 " | pc=" ++ decimal pc ++ utf8 "] > ") := by
    have hopen : utf8 "\n[step " = newline :: utf8 "[step " := rfl
    simp [Event.text, hopen]
  have hnewline : newline ∉ utf8 "[step " ++ decimal steps.toNat ++ utf8 " | pc=" ++ decimal pc
      ++ utf8 "] > " := by
    have hopen : newline ∉ utf8 "[step " := by decide
    have hmiddle : newline ∉ utf8 " | pc=" := by decide
    have hclose : newline ∉ utf8 "] > " := by decide
    simp [hopen, hmiddle, hclose, notMem_decimal (b := newline) (by decide)]
  rw [htext, List.append_assoc, silent_line List.not_mem_nil rfl]
  exact shownChanges_of_stops (List.cons_ne_nil _ _) hnewline (stops_cons.2 (by decide)) ht

theorem stops_text {e : Event} {s : Session} (he : e.About s) (t : Text) :
    Stops (· == space) (e.text ++ t) := by
  cases e with
  | registers m =>
    rw [Event.text, Machine.registersDump, List.append_assoc]
    exact stops_literal (by decide) _
  | memory m =>
    rw [Event.text, Machine.memoryDump, List.append_assoc, List.append_assoc]
    exact stops_literal (by decide) _
  | stepped before after pc => exact he.elim
  | _ =>
    simp only [Event.text, List.append_assoc]
    exact stops_literal (by decide) _

/-- An event that tells of a session as it stands shows no change. -/
theorem shownChanges_aside {e : Event} {s : Session} (he : e.About s)
    (hhex : ∀ i ∈ s.program.toList, newline ∉ i.hex) {t : Text} (ht : Stops (· == space) t) :
    shownChanges (e.text ++ t) = shownChanges t := by
  cases e with
  | prompt steps pc => exact shownChanges_prompt steps pc ht
  | registers m => exact (silent_dumps m).1 t
  | memory m => exact (silent_dumps m).2 t
  | upcoming steps pc i =>
    exact silent_upcoming steps pc (hhex i (Session.mem_program_of_next? he.2.2)) t
  | closing steps halted => exact silent_closing steps halted t
  | stepped before after pc => exact he.elim
  | opening =>
    exact (silent_literal (by decide +kernel) (by decide +kernel)).append
      (silent_literal (by decide +kernel) (by decide +kernel)) t
  | _ => exact silent_literal (by decide +kernel) (by decide +kernel) t

theorem newline_notMem_changeLine (r : Nat) (b a : Value) : newline ∉ changeLine r b a := by
  have hfront : newline ∉ utf8 "  R" := by decide
  have hindex := notMem_decimal (b := newline) (by decide)
  have hcolon : newline ∉ utf8 ": " := by decide
  have harrow : newline ∉ utf8 " -> " := by decide
  simp [changeLine, hfront, hindex, hcolon, harrow, Machine.newline_notMem_signed]

theorem ChangesShown.shownChanges {changes : List Change} {text : Text}
    (h : ChangesShown before after changes text) (t : Text) :
    shownChanges (text ++ t) = changes ++ shownChanges t := by
  cases h with
  | none _ => exact silent_literal (by decide +kernel) (by decide +kernel) t
  | one _ _ _ =>
    rw [shownChanges_line (newline_notMem_changeLine _ _ _), changeOf?_changeLine]
    rfl

theorem silent_counter (pc : Nat) : Silent (utf8 "  pc=" ++ decimal pc ++ utf8 "\n") := by
  have hfront : newline ∉ utf8 "  pc=" := by decide
  refine silent_line (List.not_mem_append hfront (notMem_decimal (by decide) pc)) ?_
  exact changeOf?_of_third (by decide : some (112 : UInt8) ≠ some Shape.registerMark)

theorem shownChanges_step {s u : Session} {i : Instruction} {made : List Change} {shown : Text}
    (hhex : newline ∉ i.hex)
    (hshown : ChangesShown s.machine.registers u.machine.registers made shown) (t : Text) :
    shownChanges (stepText s i shown u ++ t) = made ++ shownChanges t := by
  rw [stepText_eq, List.append_assoc, List.append_assoc, silent_upcoming _ _ hhex,
    hshown.shownChanges, silent_counter]

/-- The changes can be read from the lines of a transcript, if no newline is hidden in the digits of
    an instruction. -/
theorem Transcript.shownChanges {s t : Session} {text : Text} {changes : List Change}
    (h : Transcript s text changes t) (hhex : ∀ i ∈ s.program.toList, newline ∉ i.hex) :
    shownChanges text = changes ∧ Stops (· == space) text := by
  induction h with
  | nil s => exact ⟨rfl, stops_nil _⟩
  | aside he _ ih =>
    obtain ⟨hchanges, hstops⟩ := ih hhex
    rw [shownChanges_aside he hhex hstops]
    exact ⟨hchanges, stops_text he _⟩
  | @step s u t i made changes shown text hnext hstep hshown _ ih =>
    have hprogram : u.program = s.program := by
      rw [← Session.afterStep_of_ok hstep, Session.afterStep_program]
    obtain ⟨hchanges, -⟩ := ih (hprogram ▸ hhex)
    rw [shownChanges_step (hhex i (Session.mem_program_of_next? hnext)) hshown, hchanges,
      stepText_eq, List.append_assoc]
    exact ⟨rfl, stops_text (e := .upcoming s.steps s.machine.pc i) ⟨rfl, rfl, hnext⟩ _⟩

/-! ### The whole dialogue -/

namespace Session

/-- A step that fails changes no register. -/
theorem registers_of_leftAt {t : Session} {progress : Progress} (h : progress.LeftAt t) :
    progress.session.machine.registers = t.machine.registers := by
  rcases progress with u | u | ⟨u, f⟩
  · rw [show u = t from h]
    rfl
  · rw [show u = t from h]
    rfl
  · have hstep : t.step = .error f u := h
    have hcases := step_cases t
    rw [hstep] at hcases
    cases hcases with
    | failed _ _ => rfl

/-- A dialogue shows every change of a register. What is printed is a transcript of the steps that
    are made, and the changes in it lead from the registers before to those after. They can be read
    from the lines of the text, if no newline is hidden in the digits of an instruction. -/
theorem transcript_shows_changes (input : Text) (s : Session) :
    ∃ changes t, Transcript s (s.stepThrough input).stdout changes t ∧
      ((s.stepThrough input).result = .ok () ∧ (s.stepThrough input).session = t ∨
        ∃ f, t.step = .error f (s.stepThrough input).session ∧
          (s.stepThrough input).result = .error (.fault f)) ∧
      replay s.machine.registers changes = (s.stepThrough input).session.machine.registers ∧
      ((∀ i ∈ s.program.toList, newline ∉ i.hex) →
        shownChanges (s.stepThrough input).stdout = changes) := by
  obtain ⟨changes, t, htold, hleft⟩ := (held_converse input s).transcript
  rw [stepThrough_eq]
  refine ⟨changes, t, htold, ?_, ?_, fun hhex => (htold.shownChanges hhex).1⟩
  · generalize (s.converse input).progress = progress at hleft
    rcases progress with u | u | ⟨u, f⟩
    · exact Or.inl ⟨rfl, hleft⟩
    · exact Or.inl ⟨rfl, hleft⟩
    · exact Or.inr ⟨f, hleft, rfl⟩
  · rw [htold.replay, registers_of_leftAt hleft]

/-- A program that reads through a register below zero. It is looked at, makes one step, goes on
    until it fails, and its registers are read from what is printed. -/
theorem transcript_shows_changes_to_fault :
    ∃ (s : Session) (input : Text), (∀ i ∈ s.program.toList, newline ∉ i.hex) ∧
      shownChanges (s.stepThrough input).stdout = [⟨3, 1⟩, ⟨3, -1⟩] ∧
      (s.stepThrough input).session.machine.registers =
        replay s.machine.registers [⟨3, 1⟩, ⟨3, -1⟩] ∧
      (s.stepThrough input).result ≠ .ok () := by
  let p : Program := #[⟨.mov4, [1, 1], .mov4 1 1, 0x3101, utf8 "3101"⟩,
    ⟨.mov1, [3, 1], .mov1 3 1, 0x0301, utf8 "0301"⟩,
    ⟨.subt, [3, 2, 3], .subt 3 2 3, 0x5323, utf8 "5323"⟩,
    ⟨.load, [4, 3], .load 4 3, 0xA430, utf8 "A430"⟩]
  let input := utf8 "r\n\nc\n"
  have hhex : ∀ i ∈ (start p).program.toList, newline ∉ i.hex := by decide
  have hread : shownChanges ((start p).stepThrough input).stdout = [⟨3, 1⟩, ⟨3, -1⟩] := by
    decide +kernel
  obtain ⟨changes, t, -, -, hreplay, hshown⟩ := transcript_shows_changes input (start p)
  rw [← hshown hhex, hread] at hreplay
  exact ⟨start p, input, hhex, hread, hreplay.symm, by decide +kernel⟩

end Session

end NibbleMachine
