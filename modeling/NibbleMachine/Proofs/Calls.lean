import NibbleMachine.Proofs.Arguments
import NibbleMachine.Proofs.Drivers
import NibbleMachine.Proofs.Listing
import NibbleMachine.Proofs.SourceLines
import NibbleMachine.Proofs.WordProcessor

/-!
What a call tells about the work it has done. The exit code is 2 if no source file is named and 1 if
something has failed. A source that cannot be read leaves nothing on the standard output. Otherwise
the program is shown first, and after a run or a dialogue that has not failed the final state is
dumped at the end; after a failure nothing more is printed.
-/

namespace NibbleMachine

open Text

/-! ### The words in a listing -/

/-- The second column of a line: what stands between the gaps behind the first column. -/
def secondColumn (line : Text) : Text :=
  let gap := (line.dropWhile (· == space)).dropWhile (· != space)
  (gap.dropWhile (· == space)).takeWhile (· != space)

/-- A line of a listing, without its newline. -/
def listingLine (entry : Instruction × Nat) : Text :=
  (decimal entry.2).leftpad 4 space ++ utf8 "  " ++ entry.1.hex ++ utf8 "  " ++ entry.1.source

/-- A gap of spaces before a word is dropped. -/
theorem dropWhile_gap {word : Text} (hne : word ≠ []) (hword : space ∉ word) (k : Nat)
    (rest : Text) :
    (List.replicate k space ++ (word ++ rest)).dropWhile (· == space) = word ++ rest := by
  refine dropWhile_run (by simp) ?_
  obtain ⟨b, word, rfl⟩ := List.exists_cons_of_ne_nil hne
  rw [List.cons_append, stops_cons, beq_eq_false_iff_ne]
  exact fun hb => hword (hb ▸ List.mem_cons_self)

theorem secondColumn_listingLine {entry : Instruction × Nat} (hne : entry.1.hex ≠ [])
    (hspace : space ∉ entry.1.hex) : secondColumn (listingLine entry) = entry.1.hex := by
  obtain ⟨i, n⟩ := entry
  have hindex : space ∉ decimal n := notMem_decimal (by decide) n
  have hgap : utf8 "  " = List.replicate 2 space := rfl
  have hword : ∀ {word : Text}, space ∉ word → ∀ b ∈ word, (b != space) = true := by
    intro word hnot b hb
    simpa using fun h : b = space => hnot (h ▸ hb)
  have hstop : ∀ rest, Stops (· != space) (List.replicate 2 space ++ rest) := fun rest =>
    stops_cons.2 (by simp)
  -- neither the index nor the word holds a space, so the gaps are where the columns end
  simp only [secondColumn, listingLine, List.leftpad, hgap, List.append_assoc]
  rw [dropWhile_gap (numeral_decimal n).ne_nil hindex, dropWhile_run (hword hindex) (hstop _),
    dropWhile_gap hne hspace, takeWhile_run (hword hspace) (hstop _)]

theorem newline_notMem_listingLine {entry : Instruction × Nat} (h : newline ∉ entry.1.hex) :
    newline ∉ listingLine entry := by
  have hspace : newline ≠ space := by decide
  have hgap : newline ∉ utf8 "  " := by decide
  have hindex : newline ∉ decimal entry.2 := notMem_decimal (by decide) entry.2
  simp [listingLine, List.leftpad, hspace, hgap, hindex, h, newline_notMem_source]

namespace Program.Assembled

variable {p : Program}

theorem lines_listing (hp : p.Assembled) :
    lines (Report.listing p).text = p.toList.zipIdx.map listingLine := by
  rw [Report.text_listing]
  refine lines_flatMap listingLine fun entry hentry => newline_notMem_listingLine ?_
  rw [(hp _ (List.fst_mem_of_mem_zipIdx hentry)).hex]
  exact newline_notMem_digits _

/-- The lines of the hexadecimal output are the second column of the listing. -/
theorem lines_hexText (hp : p.Assembled) :
    lines p.hexText = (lines (Report.listing p).text).map secondColumn := by
  have hcolumn : ∀ entry ∈ p.toList.zipIdx, secondColumn (listingLine entry) = entry.1.hex := by
    intro entry hentry
    have hdigits := (hp _ (List.fst_mem_of_mem_zipIdx hentry)).hex
    have hlen := Word.length_digits entry.1.word
    rw [← hdigits] at hlen
    refine secondColumn_listingLine (List.ne_nil_of_length_pos (by omega)) ?_
    rw [hdigits]
    exact Word.notMem_digits (by decide) _
  have hhex : lines p.hexText = p.toList.map (·.hex) := by
    refine lines_flatMap _ fun i hi => ?_
    rw [(hp i hi).hex]
    exact newline_notMem_digits _
  rw [hhex, hp.lines_listing, List.map_map]
  calc p.toList.map (·.hex)
    _ = (p.toList.zipIdx.map (·.1)).map (·.hex) := by rw [List.zipIdx_map_fst]
    _ = p.toList.zipIdx.map (secondColumn ∘ listingLine) := by
      rw [List.map_map]
      exact List.map_congr_left fun entry hentry => (hcolumn entry hentry).symm

end Program.Assembled

/-! ### Dialogues that break off -/

namespace Session

variable {s t : Session} {f : Fault}

/-- If a fault has broken a dialogue off, its last event announces the instruction that failed. -/
theorem Held.announces {events : List Event} (h : Held s events (.broken t f)) :
    ∃ before pc i, events = before ++ [.upcoming t.steps pc i] ∧ t.machine.pc = pc + 1 ∧
      t.program[pc]? = some i := by
  generalize hprogress : Progress.broken t f = progress at h
  induction h with
  | going s => contradiction
  | ended s => contradiction
  | @broken s t' i f' hnext hstep =>
    obtain ⟨rfl, rfl⟩ := Progress.broken.inj hprogress
    -- a step that fails moves the program counter on but is not counted
    have hcases := step_cases s
    rw [hstep] at hcases
    cases hcases with
    | failed _ _ => exact ⟨[], s.machine.pc, i, rfl, rfl, (next?_eq_some_iff.1 hnext).2⟩
  | @aside s e events progress _ _ ih =>
    obtain ⟨before, pc, i, rfl, hpc⟩ := ih hprogress
    exact ⟨e :: before, pc, i, rfl, hpc⟩
  | step _ _ _ ih =>
    obtain ⟨before, pc, i, rfl, hpc⟩ := ih hprogress
    exact ⟨_ :: _ :: before, pc, i, rfl, hpc⟩

/-- A dialogue that breaks off prints nothing behind the instruction that failed. -/
theorem stdout_of_broken {input : Text} (h : (s.converse input).progress = .broken t f) :
    ∃ before pc i, (s.stepThrough input).stdout = before ++ (Event.upcoming t.steps pc i).text ∧
      t.machine.pc = pc + 1 ∧ t.program[pc]? = some i := by
  have hheld := held_converse input s
  rw [h] at hheld
  obtain ⟨before, pc, i, hlog, hpc, hi⟩ := hheld.announces
  refine ⟨before.flatMap Event.text, pc, i, ?_, hpc, hi⟩
  rw [stepThrough_eq, hlog]
  simp

theorem stderr_run_of_error {limit : UInt64} {e : Failure}
    (h : (s.run limit).result = .error e) : (s.run limit).stderr = s.runOpening := by
  rw [run] at h ⊢
  split at h
  · contradiction
  · rfl

end Session

/-! ### What a call tells -/

namespace CommandLine

open Session

/-- What a call with these arguments shows of a program. -/
def shown (args : List Text) (p : Program) : Text :=
  if given "--hex" args then p.hexText else (Report.listing p).text

/-- What is left by a call that has shown a program and run it. It ends well, with the three dumps of
    the final state, exactly if the program ends within the limit of steps. After a fault, and at
    the limit, nothing more is printed. -/
structure RunTold (p : Program) (printed : Text) (e : Exit) : Prop where
  ok_iff : (e.code = 0 ∧ ∃ k ≤ 100000, ((start p).after k).done = true ∧
      ((start p).after k).machine.registersDump ++ ((start p).after k).machine.memoryDump
        ++ ((start p).after k).machine.outputDump <:+ e.stdout) ↔
    ∃ k ≤ 100000, (start p).EndsAfter k
  ended : ∀ k ≤ 100000, (start p).EndsAfter k → e.code = 0 ∧ e.stdout = printed
    ++ (((start p).after k).machine.registersDump ++ ((start p).after k).machine.memoryDump
      ++ ((start p).after k).machine.outputDump)
  failed : ∀ k < 100000, ∀ f, (start p).FailsAfter k f →
    e = { code := 1, stdout := printed, stderr := (start p).runOpening ++ complaint (.fault f) }
  limited : (start p).GoesOnAfter 100000 →
    e = { code := 1
          stdout := printed
          stderr := (start p).runOpening
            ++ complaint (.stepLimit 100000 ((start p).after 100000).machine.pc) }
  otherwise : (¬ ∃ k ≤ 100000, (start p).EndsAfter k) → e.code = 1 ∧ e.stdout = printed

/-- What is left by a call that has shown a program and stepped through it. It has made `k` steps,
    up to the first place to rest, and ends well with the three dumps of the final state, unless the
    last of the steps has failed. After a fault the last thing printed is the announcement of the
    instruction that failed. -/
def DialogueTold (p : Program) (input printed : Text) (e : Exit) : Prop :=
  ∃ k, IsLeast {j | (start p).Rests (allowance (lines input)) j} k ∧
    ((start p).faultAt k = none → e.code = 0 ∧ e.stderr = [] ∧
      e.stdout = printed ++ ((start p).stepThrough input).stdout
        ++ (((start p).after k).machine.registersDump ++ ((start p).after k).machine.memoryDump
          ++ ((start p).after k).machine.outputDump)) ∧
    ∀ f, (start p).faultAt k = some f → e.code = 1 ∧ e.stderr = complaint (.fault f) ∧
      ∃ before pc i, e.stdout = printed ++ before
          ++ (Event.upcoming ((start p).after k).steps pc i).text ∧
        ((start p).after k).machine.pc = pc + 1 ∧ p[pc]? = some i

/-- What is left by a call whose source file was assembled. -/
structure ProgramTold (args : List Text) (input : Text) (p : Program) (e : Exit) : Prop where
  shown_first : shown args p <+: e.stdout
  neither : given "--step" args = false → given "-s" args = false → given "--run" args = false →
    e = { code := 0, stdout := shown args p }
  stepped : given "--step" args = true ∨ given "-s" args = true →
    DialogueTold p input (shown args p) e
  ran : given "--step" args = false → given "-s" args = false → given "--run" args = true →
    RunTold p (shown args p) e

variable {name : Text} {args : List Text} {files : Files} {input : Text} {p : Program}
  {s : Session}

theorem conclude_of_error {o : Outcome Unit} {f : Failure} (h : o.result = .error f)
    (printed : Text) :
    conclude printed o =
      { code := 1, stdout := printed ++ o.stdout, stderr := o.stderr ++ complaint f } := by
  rw [conclude, h]

theorem prefix_stdout_conclude (printed : Text) (o : Outcome Unit) :
    printed <+: (conclude printed o).stdout := by
  cases h : o.result with
  | ok _ =>
    rw [conclude_of_ok h, List.append_assoc]
    exact List.prefix_append _ _
  | error f =>
    rw [conclude_of_error h]
    exact List.prefix_append _ _

/-- A run that fails leaves what was shown on the standard output, and its complaint. -/
theorem conclude_run_of_error {limit : UInt64} {f : Failure}
    (h : (s.run limit).result = .error f) (printed : Text) : conclude printed (s.run limit) =
      { code := 1, stdout := printed, stderr := s.runOpening ++ complaint f } := by
  rw [conclude_of_error h, stdout_run, List.append_nil, stderr_run_of_error h]

theorem conclude_run_of_ends {k : Nat} (hk : k ≤ 100000) (h : s.EndsAfter k) (printed : Text) :
    (conclude printed (s.run stepLimit)).code = 0 ∧
      (conclude printed (s.run stepLimit)).stdout = printed ++ ((s.after k).machine.registersDump
        ++ (s.after k).machine.memoryDump ++ (s.after k).machine.outputDump) := by
  have hlimit : k ≤ stepLimit.toNat := hk
  obtain ⟨hresult, hsession⟩ := h.run hlimit
  rw [conclude_of_ok hresult, stdout_run, List.append_nil, hsession]
  exact ⟨rfl, rfl⟩

theorem conclude_run_of_fails {k : Nat} {f : Fault} (hk : k < 100000) (h : s.FailsAfter k f)
    (printed : Text) : conclude printed (s.run stepLimit) =
      { code := 1, stdout := printed, stderr := s.runOpening ++ complaint (.fault f) } := by
  have hlimit : k < stepLimit.toNat := hk
  exact conclude_run_of_error (h.run hlimit).1 printed

theorem conclude_run_of_goesOn (h : s.GoesOnAfter 100000) (printed : Text) :
    conclude printed (s.run stepLimit) =
      { code := 1
        stdout := printed
        stderr := s.runOpening ++ complaint (.stepLimit 100000 (s.after 100000).machine.pc) } := by
  have hlimit : stepLimit.toNat = 100000 := rfl
  rw [← hlimit] at h ⊢
  exact conclude_run_of_error h.run.1 printed

/-- There is no third way for a run to end: it comes to the end of the program, or the call fails
    and prints nothing more. -/
theorem conclude_run_of_not_ends (h : ¬ ∃ k ≤ 100000, s.EndsAfter k) (printed : Text) :
    (conclude printed (s.run stepLimit)).code = 1 ∧
      (conclude printed (s.run stepLimit)).stdout = printed := by
  rcases s.ends_or_fails_or_goesOn 100000 with hends | ⟨k, hk, f, hfails⟩ | hgoes
  · exact absurd hends h
  · rw [conclude_run_of_fails hk hfails]
    exact ⟨rfl, rfl⟩
  · rw [conclude_run_of_goesOn hgoes]
    exact ⟨rfl, rfl⟩

theorem runTold (p : Program) (printed : Text) :
    RunTold p printed (conclude printed ((start p).run stepLimit)) where
  ok_iff := by
    constructor
    · rintro ⟨hcode, -⟩
      by_contra hnot
      rw [(conclude_run_of_not_ends hnot printed).1] at hcode
      contradiction
    · rintro ⟨k, hk, h⟩
      obtain ⟨hcode, hstdout⟩ := conclude_run_of_ends hk h printed
      exact ⟨hcode, k, hk, h.2, hstdout ▸ List.suffix_append _ _⟩
  ended k hk h := conclude_run_of_ends hk h printed
  failed k hk f h := conclude_run_of_fails hk h printed
  limited h := conclude_run_of_goesOn h printed
  otherwise h := conclude_run_of_not_ends h printed

theorem dialogueTold (p : Program) (input printed : Text) :
    DialogueTold p input printed (conclude printed ((start p).stepThrough input)) := by
  obtain ⟨k, hk, -⟩ := converse_reaches input (start p)
  obtain ⟨hend, hsession, hresult⟩ := stepThrough_of_rests hk
  have hstderr : ((start p).stepThrough input).stderr = [] := by rw [stepThrough_eq]
  refine ⟨k, hk, fun hnone => ?_, fun f hf => ?_⟩
  · rw [hnone] at hresult
    rw [conclude_of_ok hresult, hsession, hstderr]
    exact ⟨rfl, rfl, rfl⟩
  · rw [hf] at hresult
    rw [endingAt, hf] at hend
    obtain ⟨before, pc, i, hstdout, hpc, hi⟩ := stdout_of_broken hend
    rw [after_program] at hi
    rw [conclude_of_error hresult, hstderr, hstdout]
    exact ⟨rfl, rfl, before, pc, i, (List.append_assoc _ _ _).symm, hpc, hi⟩

theorem shown_eq (args : List Text) (p : Program) :
    (Options.ofArgs args).showing p = shown args p := by
  rw [Options.ofArgs_eq, Options.showing, shown]
  rfl

theorem programTold (args : List Text) (input : Text) (p : Program) :
    ProgramTold args input p (process (Options.ofArgs args) input p) := by
  rw [process, shown_eq, Options.ofArgs_eq]
  simp only
  refine ⟨?_, fun hstep hs hrun => ?_, fun hstep => ?_, fun hstep hs hrun => ?_⟩
  · split_ifs
    · exact prefix_stdout_conclude _ _
    · exact prefix_stdout_conclude _ _
    · exact List.prefix_refl _
  · rw [hstep, hs, hrun]
    rfl
  · rw [if_pos (Bool.or_eq_true_iff.2 hstep)]
    exact dialogueTold p input _
  · rw [hstep, hs, hrun]
    exact runTold p _

/-! ### Calls -/

theorem call_of_no_path (h : sourcePath args = []) :
    call name args files input = { code := 2, stderr := usage name } := by
  rw [call, Options.ofArgs_eq, h]
  rfl

theorem path_ofArgs (args : List Text) : (Options.ofArgs args).path = sourcePath args := by
  rw [Options.ofArgs_eq]

theorem call_of_error {f : Failure} (hpath : sourcePath args ≠ [])
    (h : assembleFile files (sourcePath args) = .error f) :
    call name args files input = { code := 1, stderr := complaint f } := by
  rw [call, path_ofArgs, if_neg (by simpa using hpath), h]

theorem call_of_ok (hpath : sourcePath args ≠ [])
    (h : assembleFile files (sourcePath args) = .ok p) :
    call name args files input = process (Options.ofArgs args) input p := by
  rw [← path_ofArgs] at h
  exact call_eq_process (by simpa [path_ofArgs] using hpath) h

theorem complaint_noFile {path : Text} (h : 0 ∉ path) : complaint (.noFile path) =
    utf8 "[Main] Error: No se puede abrir ASM: " ++ path ++ [newline] := by
  have hopening : 0 ∉ utf8 "No se puede abrir ASM: " := by decide
  have hmessage : (Failure.noFile path).message = utf8 "No se puede abrir ASM: " ++ path := by
    rw [Failure.message, Failure.text]
    exact untilNul_of_notMem (by simp [hopening, h])
  have hwords : utf8 "[Main] Error: No se puede abrir ASM: " =
      utf8 "[Main] Error: " ++ utf8 "No se puede abrir ASM: " := by decide
  calc complaint (.noFile path)
    _ = utf8 "[Main] Error: " ++ (Failure.noFile path).message ++ [newline] := rfl
    _ = _ := by simp only [hmessage, hwords, List.append_assoc]

theorem call_of_no_file (hpath : sourcePath args ≠ []) (hfile : files (sourcePath args) = none) :
    call name args files input =
      { code := 1
        stderr :=
          utf8 "[Main] Error: No se puede abrir ASM: " ++ sourcePath args ++ [newline] } := by
  have hload : assembleFile files (sourcePath args) = .error (.noFile (sourcePath args)) := by
    simp only [assembleFile, untilNul_of_notMem (zero_notMem_sourcePath args), hfile]
  rw [call_of_error hpath hload, complaint_noFile (zero_notMem_sourcePath args)]

/-- What is wrong with a source is never put down to a want of range, so the complaint says that it
    could not be assembled. -/
theorem complaint_of_assemble {source : Text} {r : Rejection} (h : assemble source = .error r) :
    complaint (.rejected r) =
      utf8 "[Main] Error de ensamblado: " ++ r.message ++ [newline] := by
  have hcases := assemble_cases source
  rw [h] at hcases
  cases hcases with
  | refuses hrefuses =>
    obtain ⟨-, l, back, hl, -⟩ := hrefuses
    rw [complaint]
    simp only [if_neg (kind_of_readLine hl)]
    rfl

theorem call_of_rejected {source : Text} {r : Rejection} (hpath : sourcePath args ≠ [])
    (hfile : files (sourcePath args) = some source) (h : assemble source = .error r) :
    call name args files input =
      { code := 1, stderr := utf8 "[Main] Error de ensamblado: " ++ r.message ++ [newline] } := by
  have hload : assembleFile files (sourcePath args) = .error (.rejected r) := by
    simp only [assembleFile, untilNul_of_notMem (zero_notMem_sourcePath args), hfile, h]
  rw [call_of_error hpath hload, complaint_of_assemble h]

theorem call_of_assembled {source : Text} (hpath : sourcePath args ≠ [])
    (hfile : files (sourcePath args) = some source) (h : assemble source = .ok p) :
    call name args files input = process (Options.ofArgs args) input p := by
  have hload : assembleFile files (sourcePath args) = .ok p := by
    simp only [assembleFile, untilNul_of_notMem (zero_notMem_sourcePath args), hfile, h]
  exact call_of_ok hpath hload

theorem code_conclude_ne_two (printed : Text) (o : Outcome Unit) :
    (conclude printed o).code ≠ 2 := by
  cases h : o.result with
  | ok _ => simp [conclude_of_ok h]
  | error f => simp [conclude_of_error h]

theorem code_process_ne_two (o : Options) (input : Text) (p : Program) :
    (process o input p).code ≠ 2 := by
  rw [process]
  split_ifs
  · exact code_conclude_ne_two _ _
  · exact code_conclude_ne_two _ _
  · simp

/-- The code 2 is kept for calls that name no source file. -/
theorem code_call_eq_two_iff : (call name args files input).code = 2 ↔ sourcePath args = [] := by
  constructor
  · intro h
    by_contra hpath
    cases hload : assembleFile files (sourcePath args) with
    | error f => simp [call_of_error hpath hload] at h
    | ok p =>
      rw [call_of_ok hpath hload] at h
      exact code_process_ne_two _ _ _ h
  · intro h
    rw [call_of_no_path h]

/-- A call tells the truth about what it has done. Its exit code is 2 if no source file is named, and
    1 with the complaint alone if the file is missing or cannot be assembled. Otherwise the program
    is shown first; then it is stepped through, or run, or neither of the two, and the final state
    is dumped at the end unless that has failed, which makes the exit code 1. -/
theorem call_tells_truth (name : Text) (args : List Text) (files : Files) (input : Text) :
    ((call name args files input).code = 2 ∧ (call name args files input).stdout = [] ↔
      sourcePath args = []) ∧
    (sourcePath args ≠ [] → files (sourcePath args) = none → call name args files input =
      { code := 1
        stdout := []
        stderr := utf8 "[Main] Error: No se puede abrir ASM: " ++ sourcePath args ++ [newline] }) ∧
    ∀ source, sourcePath args ≠ [] → files (sourcePath args) = some source →
      (∀ r, assemble source = .error r → call name args files input =
        { code := 1
          stdout := []
          stderr := utf8 "[Main] Error de ensamblado: " ++ r.message ++ [newline] }) ∧
      ∀ p, assemble source = .ok p →
        (Report.listing p).text =
          (p.toList.zipIdx.flatMap fun entry => listingLine entry ++ [newline]) ∧
        p.hexText = (p.words.flatMap fun w => w.digits ++ [newline]) ∧
        (∀ w ∈ p.words, w.digits.length = 4) ∧
        lines p.hexText = (lines (Report.listing p).text).map secondColumn ∧
        ProgramTold args input p (call name args files input) := by
  refine ⟨?_, call_of_no_file, fun source hpath hfile => ⟨fun r => ?_, fun p hp => ?_⟩⟩
  · rw [code_call_eq_two_iff, and_iff_left_iff_imp]
    intro h
    rw [call_of_no_path h]
  · exact call_of_rejected hpath hfile
  · have hassembled := assembled_of_assemble hp
    rw [call_of_assembled hpath hfile hp]
    exact ⟨Report.text_listing p, hexText_eq hassembled, fun w _ => w.length_digits,
      hassembled.lines_hexText, programTold args input p⟩

/-- A program that reads through a register below zero. A call that asks for a run and for single
    steps makes steps, and stops at the `load`; a call that asks for a run alone fails there too. -/
theorem call_tells_truth_faulting :
    ∃ files p f,
      (call (utf8 "cpu16") [utf8 "--run", utf8 "-s", utf8 "a.asm"] files (utf8 "c\n")).code = 1 ∧
      (∃ before steps pc i,
        (call (utf8 "cpu16") [utf8 "--run", utf8 "-s", utf8 "a.asm"] files (utf8 "c\n")).stdout =
          (Report.listing p).text ++ before ++ (Event.upcoming steps pc i).text ∧
        p[pc]? = some i) ∧
      call (utf8 "cpu16") [utf8 "b.asm", utf8 "--hex", utf8 "a.asm", utf8 "--run"] files [] =
        { code := 1
          stdout := p.hexText
          stderr := (start p).runOpening ++ complaint (.fault f) } := by
  let source := utf8 "mov4 R1 1\nmov1 R3 1\nsubt R3 R2 R3\nload R4 R3"
  let files : Files := fun path => if path = utf8 "a.asm" then some source else none
  let p : Program := #[⟨.mov4, [1, 1], .mov4 1 1, 0x3101, utf8 "3101"⟩,
    ⟨.mov1, [3, 1], .mov1 3 1, 0x0301, utf8 "0301"⟩,
    ⟨.subt, [3, 2, 3], .subt 3 2 3, 0x5323, utf8 "5323"⟩,
    ⟨.load, [4, 3], .load 4 3, 0xA430, utf8 "A430"⟩]
  let args := [utf8 "--run", utf8 "-s", utf8 "a.asm"]
  let args' := [utf8 "b.asm", utf8 "--hex", utf8 "a.asm", utf8 "--run"]
  have hp : assemble source = .ok p := by decide +kernel
  have hcode : (call (utf8 "cpu16") args files (utf8 "c\n")).code = 1 := by decide +kernel
  have hfails : (start p).FailsAfter 3 (.indirect (-1)) := ⟨by decide +kernel, by decide +kernel⟩
  have hstep := ((call_tells_truth (utf8 "cpu16") args files (utf8 "c\n")).2.2 source (by decide)
    (by decide)).2 p hp
  have hrun := ((call_tells_truth (utf8 "cpu16") args' files []).2.2 source (by decide)
    (by decide)).2 p hp
  obtain ⟨k, -, hended, hfailed⟩ := hstep.2.2.2.2.stepped (by decide)
  refine ⟨files, p, _, hcode, ?_, (hrun.2.2.2.2.ran (by decide) (by decide) (by decide)).failed 3
    (by decide) _ hfails⟩
  cases hfault : (start p).faultAt k with
  | none =>
    rw [(hended hfault).1] at hcode
    contradiction
  | some f =>
    obtain ⟨-, -, before, pc, i, hstdout, -, hi⟩ := hfailed f hfault
    exact ⟨before, _, pc, i, hstdout, hi⟩

end CommandLine

end NibbleMachine
