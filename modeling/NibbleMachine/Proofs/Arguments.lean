import NibbleMachine.CommandLine
import NibbleMachine.Proofs.Text.Cuts

/-!
What the arguments of a call ask for. A flag counts wherever it stands and however often, and of
the arguments that are no flags only the last one counts: it is the source file.
-/

namespace NibbleMachine.CommandLine

open Text

/-! ### Flags and the source file -/

/-- The arguments that are flags. -/
def flags : List Text := [utf8 "--hex", utf8 "--run", utf8 "--step", utf8 "-s"]

/-- Whether a flag is among the arguments. An argument ends at its first zero byte. -/
def given (flag : String) (args : List Text) : Bool := decide (utf8 flag ∈ args.map untilNul)

/-- The source file among the arguments: the last one that is no flag, or the empty path. -/
def sourcePath (args : List Text) : Text :=
  ((args.map untilNul).filter fun arg => decide (arg ∉ flags)).getLastD []

/-! ### Options -/

namespace Options

/-- What one argument adds to options. -/
theorem add_eq (o : Options) (arg : Text) : o.add arg =
    { hex := o.hex || decide (utf8 "--hex" = arg)
      run := o.run || decide (utf8 "--run" = arg)
      step := o.step || (decide (utf8 "--step" = arg) || decide (utf8 "-s" = arg))
      path := if arg ∈ flags then o.path else arg } := by
  by_cases hflag : arg ∈ flags
  · rw [if_pos hflag]
    simp only [flags, List.mem_cons, List.not_mem_nil, or_false] at hflag
    rcases hflag with rfl | rfl | rfl | rfl <;> simp +decide [add]
  · rw [if_neg hflag]
    simp only [flags, List.mem_cons, List.not_mem_nil, or_false, not_or] at hflag
    obtain ⟨hhex, hrun, hstep, hs⟩ := hflag
    simp [add, hhex, hrun, hstep, hs, Ne.symm hhex, Ne.symm hrun, Ne.symm hstep, Ne.symm hs]

/-- What a row of arguments adds to options. -/
theorem foldl_add : ∀ (args : List Text) (o : Options), args.foldl add o =
    { hex := o.hex || decide (utf8 "--hex" ∈ args)
      run := o.run || decide (utf8 "--run" ∈ args)
      step := o.step || (decide (utf8 "--step" ∈ args) || decide (utf8 "-s" ∈ args))
      path := (args.filter fun arg => decide (arg ∉ flags)).getLastD o.path }
  | [], o => by simp
  | arg :: args, o => by
    rw [List.foldl_cons, foldl_add args (o.add arg), add_eq]
    simp only [Options.mk.injEq, List.mem_cons, Bool.decide_or]
    refine ⟨by ac_rfl, by ac_rfl, by ac_rfl, ?_⟩
    by_cases hflag : arg ∈ flags
    · rw [List.filter_cons_of_neg (by simp [hflag]), if_pos hflag]
    · rw [List.filter_cons_of_pos (by simp [hflag]), if_neg hflag, List.getLastD_cons]

theorem ofArgs_eq (args : List Text) : ofArgs args =
    { hex := given "--hex" args
      run := given "--run" args
      step := given "--step" args || given "-s" args
      path := sourcePath args } := by
  rw [ofArgs, foldl_add]
  rfl

end Options

/-- The path of the source file has no zero byte. -/
theorem zero_notMem_sourcePath (args : List Text) : 0 ∉ sourcePath args := by
  have hmem : sourcePath args ∈ [] :: (args.map untilNul).filter fun arg => decide (arg ∉ flags) :=
    List.getLastD_mem_cons
  rcases List.mem_cons.1 hmem with hnil | hmem
  · simp [hnil]
  · obtain ⟨arg, -, harg⟩ := List.mem_map.1 (List.mem_filter.1 hmem).1
    rw [← harg]
    exact zero_notMem_untilNul arg

/-! ### Which arguments count -/

/-- The first argument that is no flag, or the empty path. -/
def firstPath (args : List Text) : Text :=
  ((args.map untilNul).filter fun arg => decide (arg ∉ flags)).headD []

/-- Two rows of arguments have the same flags among them. -/
def SameFlags (args args' : List Text) : Prop :=
  ∀ flag ∈ flags, flag ∈ args.map untilNul ↔ flag ∈ args'.map untilNul

variable {args args' : List Text} {path : Text}

theorem SameFlags.given_eq (h : SameFlags args args') {flag : String} (hflag : utf8 flag ∈ flags) :
    given flag args = given flag args' :=
  decide_eq_decide.2 (h _ hflag)

/-- An argument that is no flag may be left out as far as the flags are concerned. -/
theorem sameFlags_drop (hpath : untilNul path ∉ flags) :
    SameFlags (args ++ path :: args') (args ++ args') := by
  intro flag hflag
  have hne : flag ≠ untilNul path := fun h => hpath (h ▸ hflag)
  simp [hne]

/-- The source file is named by what comes last, so what stands before another path is not it. -/
theorem sourcePath_drop (hlater : ∃ arg ∈ args', untilNul arg ∉ flags) :
    sourcePath (args ++ path :: args') = sourcePath (args ++ args') := by
  obtain ⟨arg, harg, hnot⟩ := hlater
  have hne : (args'.map untilNul).filter (fun arg => decide (arg ∉ flags)) ≠ [] :=
    List.ne_nil_of_mem (List.mem_filter.2 ⟨List.mem_map_of_mem harg, decide_eq_true hnot⟩)
  have hlast : ∀ front : List Text, sourcePath (front ++ args') = sourcePath args' := by
    intro front
    rw [sourcePath, sourcePath, List.map_append, List.filter_append, List.getLastD_eq_getLast?,
      List.getLastD_eq_getLast?, List.getLast?_append, List.getLast?_eq_some_getLast hne,
      Option.some_or]
  rw [List.append_cons, hlast, hlast]

/-- Of the arguments that are no flags the last one names the source file, and nothing else about
    them counts: calls whose arguments have the same flags among them, wherever these stand and
    however often, and the same last argument that is no flag come to the same. So a path may be
    left out if another one follows it. In particular the first path counts as long as it is also
    the last. -/
theorem call_heeds_last_path (name : Text) (files : Files) (input : Text) :
    (∀ args args', SameFlags args args' → sourcePath args = sourcePath args' →
      call name args files input = call name args' files input) ∧
    (∀ args path args', untilNul path ∉ flags → (∃ arg ∈ args', untilNul arg ∉ flags) →
      call name (args ++ path :: args') files input = call name (args ++ args') files input) ∧
    ∀ args args', SameFlags args args' → firstPath args = firstPath args' →
      firstPath args = sourcePath args → firstPath args' = sourcePath args' →
      call name args files input = call name args' files input := by
  have hcall : ∀ args args', SameFlags args args' → sourcePath args = sourcePath args' →
      call name args files input = call name args' files input := by
    intro args args' hflags hpath
    have hoptions : Options.ofArgs args = Options.ofArgs args' := by
      rw [Options.ofArgs_eq, Options.ofArgs_eq, hpath, hflags.given_eq (by decide),
        hflags.given_eq (by decide), hflags.given_eq (by decide), hflags.given_eq (by decide)]
    rw [call, call, hoptions]
  refine ⟨hcall, ?_, ?_⟩
  · intro args path args' hpath hlater
    exact hcall _ _ (sameFlags_drop hpath) (sourcePath_drop hlater)
  · intro args args' hflags hfirst hargs hargs'
    exact hcall _ _ hflags (by rw [← hargs, ← hargs', hfirst])

/-- Flags in another order, one of them twice, and an empty path that another one follows. -/
theorem call_heeds_last_path_reordered :
    call (utf8 "cpu16") [utf8 "--run", utf8 "", utf8 "a.asm", utf8 "--hex", utf8 "--run"]
        (fun _ => some (utf8 "halt")) [] =
      call (utf8 "cpu16") [utf8 "a.asm", utf8 "--hex", utf8 "--run"]
        (fun _ => some (utf8 "halt")) [] := by
  obtain ⟨hcall, -, -⟩ := call_heeds_last_path (utf8 "cpu16") (fun _ => some (utf8 "halt")) []
  refine hcall _ _ ?_ (by decide)
  intro flag hflag
  simp only [flags, List.mem_cons, List.not_mem_nil, or_false] at hflag
  rcases hflag with rfl | rfl | rfl | rfl <;> decide

/-- The first path is not enough to know: with two paths it is the second file that is shown, and
    with an empty one behind it the first is as good as not given. -/
theorem first_path_overridden :
    ∃ files : Files,
      (SameFlags [utf8 "a.asm", utf8 "b.asm"] [utf8 "a.asm"] ∧
        firstPath [utf8 "a.asm", utf8 "b.asm"] = firstPath [utf8 "a.asm"] ∧
        call (utf8 "cpu16") [utf8 "a.asm", utf8 "b.asm"] files [] =
          { code := 0, stdout := utf8 "   0  7005  readm 5\n" } ∧
        call (utf8 "cpu16") [utf8 "a.asm"] files [] =
          { code := 0, stdout := utf8 "   0  F000  halt\n" }) ∧
      SameFlags [utf8 "a.asm", []] [utf8 "a.asm"] ∧
        firstPath [utf8 "a.asm", []] = firstPath [utf8 "a.asm"] ∧
        (call (utf8 "cpu16") [utf8 "a.asm", []] files []).code = 2 := by
  let files : Files := fun path =>
    if path = utf8 "a.asm" then some (utf8 "halt\n")
    else if path = utf8 "b.asm" then some (utf8 "readm 5\n") else none
  have hsame : ∀ path, untilNul path ∉ flags → SameFlags [utf8 "a.asm", path] [utf8 "a.asm"] :=
    fun path => @sameFlags_drop [utf8 "a.asm"] [] path
  refine ⟨files, ⟨hsame _ (by decide), by decide, ?_, ?_⟩, hsame _ (by decide), by decide, ?_⟩
  · decide +kernel
  · decide +kernel
  · decide +kernel

end NibbleMachine.CommandLine
