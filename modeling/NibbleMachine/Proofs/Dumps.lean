import NibbleMachine.Proofs.Execution
import NibbleMachine.Proofs.Listing
import NibbleMachine.Report.Dump

/-!
The dumps lose nothing. A dump is a heading and lines that are indented, so the three dumps of a
machine can be told apart again. A line of a register or of the log is known by its place; a line
of a cell has its address in two digits. What follows is a number in base ten, which ends at the
end of the line or at a space. So every register, every cell that is not zero and every entry of the
log can be read from the text, and the cells that have no line are zero.
-/

namespace NibbleMachine

open Text

/-! ### Lines of a dump -/

/-- The bits of a number below zero, in base sixteen and in brackets. -/
def bitsText (v : Value) : Text :=
  if v < 0 then utf8 " (0x" ++ numeral .hexadecimal false v.toUInt64.toNat ++ utf8 ")" else []

/-- The line of a register, without its newline. -/
def registerLine (r : Nat) (v : Value) : Text :=
  utf8 "  R" ++ (decimal r).rightpad 2 space ++ utf8 " = " ++ signed v.toInt ++ bitsText v

/-- An address in two hexadecimal digits, with capitals for those from ten on. -/
def addressText (a : Nat) : Text :=
  [a / 16, a % 16].map fun d => (utf8 "0123456789ABCDEF").getD d 0

/-- The line of a cell, without its newline. -/
def cellLine (a : Nat) (v : Value) : Text :=
  utf8 "  [0x" ++ addressText a ++ utf8 "] = " ++ signed v.toInt

/-- The line of an entry of the log, without its newline. -/
def outputLine (t : Nat) (v : Value) : Text :=
  utf8 "  t=" ++ decimal t ++ utf8 ": " ++ signed v.toInt

theorem stops_bitsText (v : Value) : Stops isDigit (bitsText v) := by
  rw [bitsText]
  split
  · exact stops_cons.2 (by decide)
  · exact stops_nil _

theorem registerLine_inj {r : Nat} {v w : Value} (h : registerLine r v = registerLine r w) :
    v = w := by
  simp only [registerLine, List.append_assoc, List.append_cancel_left_eq] at h
  exact Int64.toInt_inj.1 (signed_append_inj (stops_bitsText v) (stops_bitsText w) h)

theorem outputLine_inj {t : Nat} {v w : Value} (h : outputLine t v = outputLine t w) : v = w := by
  simp only [outputLine, List.append_cancel_left_eq] at h
  refine Int64.toInt_inj.1 (signed_append_inj (stops_nil _) (stops_nil _) ?_)
  rw [h]

theorem digitByte_capital : ∀ d < 16, digitByte true d = (utf8 "0123456789ABCDEF").getD d 0 := by
  decide

/-- An address has two digits, the first of which may be a zero. -/
theorem leftpad_numeral {a : Nat} (ha : a < 256) :
    (numeral .hexadecimal true a).leftpad 2 48 = addressText a := by
  have hbase : Radix.hexadecimal.base = 16 := rfl
  have hdigits : addressText a = [digitByte true (a / 16), digitByte true (a % 16)] := by
    rw [digitByte_capital _ (by omega), digitByte_capital _ (by omega)]
    rfl
  rw [hdigits, numeral, Radix.digits, hbase]
  split
  · rename_i hlt
    rw [Nat.div_eq_of_lt hlt, Nat.mod_eq_of_lt hlt]
    rfl
  · rw [Radix.digits, hbase, if_pos (by omega)]
    rfl

theorem addressText_inj {a b : Nat} (ha : a < 256) (hb : b < 256)
    (h : addressText a = addressText b) : a = b := by
  rw [← spelled_numeral .hexadecimal true a, ← spelled_leftpad _ 2, leftpad_numeral ha, h,
    ← leftpad_numeral hb, spelled_leftpad, spelled_numeral]

theorem cellLine_inj {a b : Nat} {v w : Value} (ha : a < 256) (hb : b < 256)
    (h : cellLine a v = cellLine b w) : a = b ∧ v = w := by
  simp only [cellLine, List.append_assoc, List.append_cancel_left_eq] at h
  obtain ⟨haddress, hvalue⟩ := List.append_inj h rfl
  refine ⟨addressText_inj ha hb haddress, Int64.toInt_inj.1 ?_⟩
  refine signed_append_inj (stops_nil _) (stops_nil _) ?_
  rw [List.append_cancel_left hvalue]

/-! ### What reports write -/

namespace Report

open Style

theorem utf8_newline : utf8 "\n" = [newline] := rfl

theorem write_registerItems (r : Nat) (v : Value) : ({} : Style).write (registerItems r v) =
    ({}, utf8 "R" ++ (decimal r).rightpad 2 space ++ utf8 " = " ++ signed v.toInt
      ++ bitsText v) := by
  rw [registerItems, bitsText]
  split <;> simp [put, pad, say, valueText, decimal]

theorem write_cellItems {a : Nat} (ha : a < 256) (v : Value) :
    ({} : Style).write (cellItems a v) = ({}, cellLine a v ++ [newline]) := by
  rw [cellLine, ← leftpad_numeral ha]
  simp [cellItems, put, pad, say, valueText, utf8_newline]

theorem write_outputItems (log : Array Value) : ({} : Style).write (outputItems log) =
    ({}, if log.isEmpty then utf8 "  (sin salida)\n"
      else log.toList.zipIdx.flatMap fun (v, t) => outputLine t v ++ [newline]) := by
  rw [outputItems]
  split
  · simp [say, put_text]
  · refine write_flatMap fun entry _ => ?_
    simp [put, pad, say, valueText, outputLine, decimal, utf8_newline]

end Report

/-! ### Dumps as lines -/

namespace Machine

/-- The addresses of the cells that are not zero, in order. -/
def usedCells (m : Machine) : List Nat := (List.range 256).filter fun a => m.mem a ≠ 0

/-- The lines of the registers. -/
def registerLines (m : Machine) : List Text :=
  m.registers.toList.zipIdx.map fun entry => registerLine entry.2 entry.1

/-- The lines of the cells. -/
def cellLines (m : Machine) : List Text :=
  if m.usedCells = [] then [utf8 "  (vacía)"] else m.usedCells.map fun a => cellLine a (m.mem a)

/-- The lines of the log. -/
def outputLines (m : Machine) : List Text :=
  if m.output.isEmpty then [utf8 "  (sin salida)"]
  else m.output.toList.zipIdx.map fun entry => outputLine entry.2 entry.1

/-- All lines of the three dumps. -/
def dumpLines (m : Machine) : List Text :=
  utf8 "REGISTROS:" :: (m.registerLines ++ utf8 "MEMORIA (no nula):"
    :: (m.cellLines ++ utf8 "SALIDA:" :: m.outputLines))

theorem mem_usedCells {m : Machine} {a : Nat} : a ∈ m.usedCells ↔ a < 256 ∧ m.mem a ≠ 0 := by
  simp [usedCells]

theorem mem_usedCells_iff_memory {m : Machine} {a : Nat} :
    a ∈ m.usedCells ↔ ∃ _ : a < 256, m.memory[a] ≠ 0 := by
  rw [mem_usedCells]
  constructor
  · rintro ⟨ha, hne⟩
    exact ⟨ha, by rwa [← mem_of_lt ha]⟩
  · rintro ⟨ha, hne⟩
    exact ⟨ha, by rwa [mem_of_lt ha]⟩

theorem zipIdx_memory (m : Machine) :
    m.memory.toList.zipIdx = (List.range 256).map fun a => (m.mem a, a) := by
  refine List.ext_getElem (by simp) fun a ha ha' => ?_
  have hlt : a < 256 := by simpa using ha'
  rw [List.getElem_zipIdx, List.getElem_map, List.getElem_range, mem_of_lt hlt]
  simp

theorem registersDump_eq (m : Machine) : m.registersDump =
    (utf8 "REGISTROS:" :: m.registerLines).flatMap (· ++ [newline]) := by
  have hheading : utf8 "REGISTROS:\n" = utf8 "REGISTROS:" ++ [newline] := rfl
  have hindent : utf8 "  R" = utf8 "  " ++ utf8 "R" := rfl
  rw [registersDump, hheading, List.flatMap_cons, registerLines, List.flatMap_map]
  simp only [Report.text, Report.print, Report.items, Report.write_registerItems, registerLine,
    Report.utf8_newline, hindent, List.append_assoc]

theorem memoryDump_eq (m : Machine) : m.memoryDump =
    (utf8 "MEMORIA (no nula):" :: m.cellLines).flatMap (· ++ [newline]) := by
  have hheading : utf8 "MEMORIA (no nula):\n" = utf8 "MEMORIA (no nula):" ++ [newline] := rfl
  have hempty : utf8 "  (vacía)\n" = utf8 "  (vacía)" ++ [newline] := rfl
  have hrows : m.memory.toList.zipIdx.filter (·.1 ≠ 0) = m.usedCells.map fun a => (m.mem a, a) := by
    rw [zipIdx_memory, List.filter_map]
    rfl
  rw [memoryDump, hheading, List.flatMap_cons, Report.text, Report.print, Report.items,
    Report.memoryItems, cellLines]
  simp only [hrows, List.isEmpty_iff, List.map_eq_nil_iff]
  split
  · simp [Report.say, Style.put_text, hempty]
  · rw [List.flatMap_map, List.flatMap_map, Style.write_flatMap fun a ha => ?_]
    exact Report.write_cellItems (mem_usedCells.1 ha).1 _

theorem outputDump_eq (m : Machine) : m.outputDump =
    (utf8 "SALIDA:" :: m.outputLines).flatMap (· ++ [newline]) := by
  have hheading : utf8 "SALIDA:\n" = utf8 "SALIDA:" ++ [newline] := rfl
  have hempty : utf8 "  (sin salida)\n" = utf8 "  (sin salida)" ++ [newline] := rfl
  rw [outputDump, hheading, List.flatMap_cons, Report.text, Report.print, Report.items,
    Report.write_outputItems, outputLines]
  split
  · simp [hempty]
  · rw [List.flatMap_map]

/-! ### Reading the dumps -/

variable {m m' : Machine}

/-- A line of a dump that is no heading: it starts with a space and holds no newline. -/
def Indented (l : Text) : Prop := l.head? = some space ∧ newline ∉ l

theorem newline_notMem_signed (i : Int) : newline ∉ signed i :=
  notMem_signed (by decide) (by decide) i

theorem newline_notMem_bitsText (v : Value) : newline ∉ bitsText v := by
  have hopen : newline ∉ utf8 " (0x" := by decide
  have hnumeral := notMem_numeral .hexadecimal false (b := newline) (by decide)
  have hclose : newline ∉ utf8 ")" := by decide
  rw [bitsText]
  split
  · simp [hopen, hnumeral, hclose]
  · simp

theorem newline_notMem_addressText {a : Nat} (ha : a < 256) : newline ∉ addressText a := by
  have hzero : newline ≠ 48 := by decide
  have hnumeral := notMem_numeral .hexadecimal true (b := newline) (by decide)
  rw [← leftpad_numeral ha, List.leftpad]
  simp [hzero, hnumeral]

theorem indented_registerLines : ∀ l ∈ m.registerLines, Indented l := by
  intro l hl
  obtain ⟨⟨v, r⟩, -, rfl⟩ := List.mem_map.1 hl
  have hfront : newline ∉ utf8 "  R" := by decide
  have hindex := notMem_decimal (b := newline) (by decide)
  have hspace : newline ≠ space := by decide
  have hequals : newline ∉ utf8 " = " := by decide
  refine ⟨rfl, ?_⟩
  simp [registerLine, List.rightpad, hfront, hindex, hspace, hequals, newline_notMem_signed,
    newline_notMem_bitsText]

theorem indented_cellLines : ∀ l ∈ m.cellLines, Indented l := by
  intro l hl
  rw [cellLines] at hl
  split at hl
  · obtain rfl := List.mem_singleton.1 hl
    exact ⟨rfl, by decide⟩
  · obtain ⟨a, ha, rfl⟩ := List.mem_map.1 hl
    have hfront : newline ∉ utf8 "  [0x" := by decide
    have haddress := newline_notMem_addressText (mem_usedCells.1 ha).1
    have hequals : newline ∉ utf8 "] = " := by decide
    refine ⟨rfl, ?_⟩
    simp [cellLine, hfront, haddress, hequals, newline_notMem_signed]

theorem indented_outputLines : ∀ l ∈ m.outputLines, Indented l := by
  intro l hl
  rw [outputLines] at hl
  split at hl
  · obtain rfl := List.mem_singleton.1 hl
    exact ⟨rfl, by decide⟩
  · obtain ⟨⟨v, t⟩, -, rfl⟩ := List.mem_map.1 hl
    have hfront : newline ∉ utf8 "  t=" := by decide
    have htime := notMem_decimal (b := newline) (by decide)
    have hcolon : newline ∉ utf8 ": " := by decide
    refine ⟨rfl, ?_⟩
    simp [outputLine, hfront, htime, hcolon, newline_notMem_signed]

theorem lines_ended {ls : List Text} (h : ∀ l ∈ ls, newline ∉ l) :
    lines (ls.flatMap (· ++ [newline])) = ls := by
  rw [← List.map_id ls]
  simpa using lines_flatMap id h

theorem lines_memoryDump (m : Machine) :
    lines m.memoryDump = utf8 "MEMORIA (no nula):" :: m.cellLines := by
  rw [memoryDump_eq, lines_ended]
  intro l hl
  rcases List.mem_cons.1 hl with rfl | hl
  · decide
  · exact (indented_cellLines l hl).2

/-- The dumps are read back line by line. -/
theorem lines_dumps (m : Machine) :
    lines (m.registersDump ++ m.memoryDump ++ m.outputDump) = m.dumpLines := by
  have hflat : m.registersDump ++ m.memoryDump ++ m.outputDump =
      m.dumpLines.flatMap (· ++ [newline]) := by
    rw [registersDump_eq, memoryDump_eq, outputDump_eq, dumpLines]
    simp only [List.flatMap_append, List.flatMap_cons, List.append_assoc]
  rw [hflat, lines_ended]
  intro l hl
  simp only [dumpLines, List.mem_append, List.mem_cons] at hl
  rcases hl with rfl | hl | rfl | hl | rfl | hl
  · decide
  · exact (indented_registerLines l hl).2
  · decide
  · exact (indented_cellLines l hl).2
  · decide
  · exact (indented_outputLines l hl).2

/-- The three dumps can be told apart, since a heading is none of the lines below it. -/
theorem eq_of_dumpLines_eq (h : m.dumpLines = m'.dumpLines) :
    m.registerLines = m'.registerLines ∧ m.cellLines = m'.cellLines ∧
      m.outputLines = m'.outputLines := by
  have hheading : ∀ {heading : Text} {ls : List Text}, (∀ l ∈ ls, Indented l) →
      heading.head? ≠ some space → heading ∉ ls :=
    fun hls hhead hmem => hhead (hls _ hmem).1
  have hmemory : utf8 "MEMORIA (no nula):" ∉ m.cellLines ++ utf8 "SALIDA:" :: m.outputLines := by
    refine List.not_mem_append (hheading indented_cellLines (by decide)) ?_
    exact List.not_mem_cons_of_ne_of_not_mem (by decide)
      (hheading indented_outputLines (by decide))
  have hfirst := (List.append_cons_inj_of_notMem
    (hheading indented_registerLines (by decide)) hmemory).1 (List.cons.inj h).2
  have hsecond := (List.append_cons_inj_of_notMem (hheading indented_cellLines (by decide))
    (hheading indented_outputLines (by decide))).1 hfirst.2.2
  exact ⟨hfirst.1, hsecond.1, hsecond.2.2⟩

/-! ### What the lines tell -/

/-- Values whose lines have their place in them are known by their lines. -/
theorem zipIdx_map_inj (f : Nat → Value → Text) (hf : ∀ {k v w}, f k v = f k w → v = w) :
    ∀ {vs ws : List Value} {k : Nat}, (vs.zipIdx k).map (fun entry => f entry.2 entry.1) =
      (ws.zipIdx k).map (fun entry => f entry.2 entry.1) → vs = ws
  | [], [], _, _ => rfl
  | [], _ :: _, _, h => by simp at h
  | _ :: _, [], _, h => by simp at h
  | v :: vs, w :: ws, k, h => by
    simp only [List.zipIdx_cons, List.map_cons] at h
    obtain ⟨hhead, htail⟩ := List.cons.inj h
    rw [show v = w from hf hhead, zipIdx_map_inj f hf htail]

theorem registers_eq_of_lines (h : m.registerLines = m'.registerLines) :
    m.registers = m'.registers :=
  Vector.toList_inj.1 (zipIdx_map_inj registerLine registerLine_inj h)

theorem cellLine_ne_empty (a : Nat) (v : Value) : cellLine a v ≠ utf8 "  (vacía)" := by
  intro h
  have hthird : some (91 : UInt8) = (utf8 "  (vacía)")[2]? := congrArg (·[2]?) h
  exact absurd hthird (by decide)

/-- A cell has its line exactly if it is not zero. -/
theorem cellLine_mem_iff {a : Nat} (ha : a < 256) {v : Value} :
    cellLine a v ∈ m.cellLines ↔ m.mem a = v ∧ v ≠ 0 := by
  rw [cellLines]
  split
  · rename_i hnone
    refine iff_of_false (by simpa using cellLine_ne_empty a v) ?_
    rintro ⟨rfl, hne⟩
    have hmem := mem_usedCells.2 ⟨ha, hne⟩
    simp [hnone] at hmem
  · rw [List.mem_map]
    constructor
    · rintro ⟨b, hb, hline⟩
      obtain ⟨hlt, hne⟩ := mem_usedCells.1 hb
      obtain ⟨rfl, rfl⟩ := cellLine_inj hlt ha hline
      exact ⟨rfl, hne⟩
    · rintro ⟨rfl, hne⟩
      exact ⟨a, mem_usedCells.2 ⟨ha, hne⟩, rfl⟩

theorem memory_eq_of_lines (h : m.cellLines = m'.cellLines) : m.memory = m'.memory := by
  refine Vector.ext fun a ha => ?_
  rw [← mem_of_lt ha, ← mem_of_lt ha]
  by_cases hzero : m.mem a = 0
  · by_cases hzero' : m'.mem a = 0
    · rw [hzero, hzero']
    · have hline := (cellLine_mem_iff ha).2 ⟨rfl, hzero'⟩
      rw [← h] at hline
      exact ((cellLine_mem_iff ha).1 hline).1
  · have hline := (cellLine_mem_iff ha).2 ⟨rfl, hzero⟩
    rw [h] at hline
    exact ((cellLine_mem_iff ha).1 hline).1.symm

theorem output_eq_of_lines (h : m.outputLines = m'.outputLines) : m.output = m'.output := by
  have hnone : ∀ log : Array Value, utf8 "  (sin salida)" ∉
      log.toList.zipIdx.map fun entry => outputLine entry.2 entry.1 := by
    intro log hmem
    obtain ⟨⟨v, t⟩, -, hline⟩ := List.mem_map.1 hmem
    have hthird : some (116 : UInt8) = (utf8 "  (sin salida)")[2]? := congrArg (·[2]?) hline
    exact absurd hthird (by decide)
  rw [outputLines, outputLines] at h
  split at h <;> split at h
  · rename_i hempty hempty'
    rw [Array.isEmpty_iff.1 hempty, Array.isEmpty_iff.1 hempty']
  · exact absurd (h ▸ List.mem_singleton_self _) (hnone m'.output)
  · exact absurd (h ▸ List.mem_singleton_self _) (hnone m.output)
  · exact Array.toList_inj.1 (zipIdx_map_inj outputLine outputLine_inj h)

theorem usedCells_eq_nil_iff : m.usedCells = [] ↔ ∀ (a : Nat) (_ : a < 256), m.memory[a] = 0 := by
  simp only [List.eq_nil_iff_forall_not_mem, mem_usedCells_iff_memory, not_exists, not_not]

/-- The line that stands for an empty memory is there exactly if no cell has a line. -/
theorem empty_mem_lines_iff : utf8 "  (vacía)" ∈ lines m.memoryDump ↔ m.usedCells = [] := by
  have hheading : utf8 "  (vacía)" ≠ utf8 "MEMORIA (no nula):" := by decide
  rw [lines_memoryDump, List.mem_cons, or_iff_right hheading, cellLines]
  split
  · rename_i hnone
    exact iff_of_true (List.mem_singleton_self _) hnone
  · rename_i hsome
    refine iff_of_false (fun hmem => ?_) hsome
    obtain ⟨a, -, hline⟩ := List.mem_map.1 hmem
    exact cellLine_ne_empty a _ hline

/-- The dumps lose nothing. Machines whose three dumps, one after the other, are the same text have
    the same registers, the same memory and the same output log. And the dump of a memory has below
    its heading one line for each cell that is not zero, in the order of their addresses, which it
    gives in two capital hexadecimal digits; or, exactly if all cells are zero, the one line that
    says so. -/
theorem dumps_lose_nothing :
    (∀ m m' : Machine, m.registersDump ++ m.memoryDump ++ m.outputDump =
        m'.registersDump ++ m'.memoryDump ++ m'.outputDump →
      m.registers = m'.registers ∧ m.memory = m'.memory ∧ m.output = m'.output) ∧
    ∀ m : Machine, ∃ addresses : List Nat, addresses.Pairwise (· < ·) ∧
      (∀ a, a ∈ addresses ↔ ∃ _ : a < 256, m.memory[a] ≠ 0) ∧
      (addresses ≠ [] → m.memoryDump = utf8 "MEMORIA (no nula):\n"
        ++ addresses.flatMap fun a => utf8 "  [0x" ++ addressText a ++ utf8 "] = "
          ++ signed (m.mem a).toInt ++ [newline]) ∧
      (addresses = [] → m.memoryDump = utf8 "MEMORIA (no nula):\n  (vacía)\n") ∧
      (utf8 "  (vacía)" ∈ lines m.memoryDump ↔ ∀ (a : Nat) (_ : a < 256), m.memory[a] = 0) := by
  constructor
  · intro m m' h
    have hlines := lines_dumps m
    rw [h, lines_dumps] at hlines
    obtain ⟨hregisters, hcells, houtput⟩ := eq_of_dumpLines_eq hlines.symm
    exact ⟨registers_eq_of_lines hregisters, memory_eq_of_lines hcells, output_eq_of_lines houtput⟩
  · intro m
    refine ⟨m.usedCells, List.pairwise_lt_range.filter _, fun a => mem_usedCells_iff_memory,
      fun hne => ?_, fun hnil => ?_, empty_mem_lines_iff.trans usedCells_eq_nil_iff⟩
    · rw [memoryDump_eq, List.flatMap_cons, cellLines, if_neg hne, List.flatMap_map]
      rfl
    · rw [memoryDump_eq, cellLines, if_pos hnil]
      rfl

/-- Two machines at different points of a program that have one dump, with a cell that is not zero
    and without. -/
theorem dumps_lose_nothing_elsewhere :
    ∃ m m' : Machine, m.pc ≠ m'.pc ∧ m.memory[171] = -1 ∧
      m.registersDump ++ m.memoryDump ++ m.outputDump =
        m'.registersDump ++ m'.memoryDump ++ m'.outputDump ∧
      (m.registers = m'.registers ∧ m.memory = m'.memory ∧ m.output = m'.output) ∧
      utf8 "  (vacía)" ∉ lines m.memoryDump ∧
      ({} : Machine).memoryDump = utf8 "MEMORIA (no nula):\n  (vacía)\n" := by
  let m := ({ output := #[0, -7] } : Machine).putMem 171 (-1)
  have hcell : m.memory[171] = -1 := by decide +kernel
  have hzero : ∀ (a : Nat) (_ : a < 256), ({} : Machine).memory[a] = 0 :=
    fun a ha => Vector.getElem_replicate ha
  obtain ⟨_, -, -, -, -, hempty⟩ := dumps_lose_nothing.2 m
  obtain ⟨addresses, -, hmem, -, hnil, -⟩ := dumps_lose_nothing.2 {}
  refine ⟨m, { m with pc := 5 }, by decide, hcell, rfl, dumps_lose_nothing.1 _ _ rfl, ?_, hnil ?_⟩
  · rw [hempty]
    intro h
    exact absurd ((h 171 (by decide)).symm.trans hcell) (by decide)
  · rw [List.eq_nil_iff_forall_not_mem]
    intro a ha
    obtain ⟨hlt, hne⟩ := (hmem a).1 ha
    exact hne (hzero a hlt)

end Machine

end NibbleMachine
