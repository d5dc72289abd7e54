import NibbleMachine.Proofs.Transcripts

/-!
Reports that follow each other under one set of settings. In the middle of its lines a report may
turn to base sixteen and to capitals, pad on the other side or with zeros, and ask for a width; some
of this hangs on the values that it shows. It has put everything back by the end of the line, and
no width is left over. So the next report finds the usual settings, and what it writes is what it
writes on its own.
-/

namespace NibbleMachine.Report

open Text Style

/-! ### What a report says -/

/-- What a report says, written out without any settings. -/
def plain : Report → Text
  | .register r v =>
    utf8 "R" ++ (decimal r).rightpad 2 space ++ utf8 " = " ++ signed v.toInt ++ bitsText v
  | .change r before after => if before = after then [] else changeLine r before after ++ [newline]
  | .memory cells =>
    let rows := cells.toList.zipIdx.filter (·.1 ≠ 0)
    if rows.isEmpty then utf8 "  (vacía)\n"
    else rows.flatMap fun (v, addr) => cellLine addr v ++ [newline]
  | .output log =>
    if log.isEmpty then utf8 "  (sin salida)\n"
    else log.toList.zipIdx.flatMap fun (v, t) => outputLine t v ++ [newline]
  | .instruction index i => listingLine (i, index) ++ [newline]
  | .listing p => p.toList.zipIdx.flatMap fun entry => listingLine entry ++ [newline]

/-- Every cell has its address in two digits, since there are only 256. -/
theorem write_memoryItems (cells : Vector Value 256) :
    ({} : Style).write (memoryItems cells) = ({}, (memory cells).plain) := by
  simp only [memoryItems, plain]
  split
  · simp [say, put_text]
  · refine write_flatMap fun row hrow => write_cellItems ?_ row.1
    have hlt := List.snd_lt_of_mem_zipIdx (List.mem_filter.1 hrow).1
    simpa using hlt

/-- A report that finds the usual settings says what it has to say and leaves the usual settings. -/
theorem write_items (r : Report) : ({} : Style).write r.items = ({}, r.plain) := by
  cases r with
  | register r v => exact write_registerItems r v
  | change r before after => exact write_changeItems r before after
  | memory cells => exact write_memoryItems cells
  | output log => exact write_outputItems log
  | instruction index i => exact write_instructionItems index i
  | listing p => exact write_flatMap fun entry _ => write_instructionItems entry.2 entry.1

theorem text_eq_plain (r : Report) : r.text = r.plain := by
  rw [text, print, write_items]

/-! ### Reports in a row -/

theorem print_usual (r : Report) : r.print {} = ({}, r.text) := by
  rw [print, write_items, text_eq_plain]

theorem printAll_usual : ∀ rs : List Report, printAll {} rs = rs.map text
  | [] => rfl
  | r :: rs => by
    rw [printAll, print_usual, List.map_cons, ← printAll_usual rs]

/-- Reports do not disturb each other. If they find the usual settings at first, each adds the text
    that it has on its own, whatever came before it, and the usual settings are left. And this text
    is what it has to say, with each number in the base, case and width that is meant for it. -/
theorem reports_do_not_disturb :
    (∀ rs : List Report, printAll {} rs = rs.map text) ∧
    (∀ rs : List Report, ({} : Style).write (rs.flatMap items) = ({}, rs.flatMap text)) ∧
    ∀ r : Report, r.text = r.plain := by
  refine ⟨printAll_usual, fun rs => ?_, text_eq_plain⟩
  exact write_flatMap fun r _ => print_usual r

/-- A base that was not put back would show in the next report. -/
example : ((change 1 10 11).print { radix := .hexadecimal }).2 = utf8 "  R1: a -> b\n" ∧
    (change 1 10 11).text = utf8 "  R1: 10 -> 11\n" := by decide +kernel

end NibbleMachine.Report
