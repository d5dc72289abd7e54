import NibbleMachine.CommandLine
import NibbleMachine.Proofs.Dialogues
import NibbleMachine.Proofs.Runs

/-!
A run and a dialogue that is told to carry on at once come to the same. The run counts its own
steps and looks at its allowance before each of them. The dialogue looks at the step count of the
session, after it has announced the next instruction. Both counts are zero at the start of a
program, so both stop at the same step: at the end of the program, at a fault or at the limit.
-/

namespace NibbleMachine

open Text

namespace Session

/-! ### Two ways to end -/

/-- `Agree s left r log progress`: the end `r` of a run of at most `left` steps from `s` and that of
    a dialogue are of one kind and left one session. The limit is the only one of the three kinds
    that a run reports as a failure and a dialogue does not; it is the last thing in its log. -/
inductive Agree (s : Session) (left : Nat) :
    EStateM.Result Failure Session Unit → Array Event → Progress → Prop
  | finished {t : Session} {log : Array Event} (hdone : t.done = true)
      (hlog : .limitReached ∉ log) : Agree s left (.ok () t) log (.over t)
  | failed {t : Session} {f : Fault} {log : Array Event} (hlog : .limitReached ∉ log) :
      Agree s left (.error (.fault f) t) log (.broken t f)
  | limited {t : Session} {log : Array Event} (before : List Event) (ht : t = s.after left)
      (hdone : t.done = false) (hsteps : t.steps = stepLimit)
      (hlog : log.toList = before ++ [.limitReached]) :
      Agree s left (.error (.stepLimit stepLimit t.machine.pc) t) log (.over t)

variable {s t : Session} {left : Nat}

theorem Agree.of_step {more : Bool} {r : EStateM.Result Failure Session Unit} {log : Array Event}
    {progress : Progress} (hstep : s.step = .ok more t) (h : Agree t left r log progress) :
    Agree s (left + 1) r log progress := by
  cases h with
  | finished hdone hlog => exact .finished hdone hlog
  | failed hlog => exact .failed hlog
  | limited before ht hdone hsteps hlog =>
    exact .limited before (by rw [ht, after_succ, afterStep_of_ok hstep]) hdone hsteps hlog

/-- Events in front that do not tell of the limit make no difference. -/
theorem Agree.append {r : EStateM.Result Failure Session Unit} {log log' : Array Event}
    {progress : Progress} (hlog' : .limitReached ∉ log') (h : Agree s left r log progress) :
    Agree s left r (log' ++ log) progress := by
  cases h with
  | finished hdone hlog => exact .finished hdone (by simp [hlog, hlog'])
  | failed hlog => exact .failed (by simp [hlog, hlog'])
  | limited before ht hdone hsteps hlog =>
    exact .limited (log'.toList ++ before) ht hdone hsteps (by simp [hlog])

theorem runSteps_of_step (hdone : ¬ s.done = true) {more : Bool} (hstep : s.step = .ok more t)
    (limit : UInt64) : s.runSteps limit (left + 1) = t.runSteps limit left := by
  rw [runSteps, if_neg hdone, hstep]

/-- With as many steps left as the session has below the limit, the two agree. -/
theorem agree_carryOn (left : Nat) (s : Session) (log : Array Event)
    (hleft : s.steps.toNat + left = stepLimit.toNat) (hlog : .limitReached ∉ log) :
    Agree s left (s.runSteps stepLimit left) (s.carryOn left log).1 (s.carryOn left log).2 := by
  fun_induction carryOn left s log with
  | case1 left s log hdone =>
    rw [runSteps_of_done hdone]
    exact .finished hdone hlog
  | case2 s log hdone events t left hadvance ih =>
    have hcases := advance_cases hdone
    rw [hadvance] at hcases
    cases hcases with
    | going _ hlimit hstep =>
      have hcount := toNat_steps_of_step hlimit hstep
      rw [runSteps_of_step hdone hstep]
      exact .of_step hstep (ih (by omega) (by simp [hlog]))
  | case3 left s log hdone events progress hadvance hlast =>
    have hcases := advance_cases hdone
    rw [hadvance] at hcases
    cases hcases with
    | @limit i _ hlimit =>
      have hle := UInt64.le_iff_toNat_le.1 hlimit
      obtain rfl : left = 0 := by omega
      rw [runSteps, if_neg hdone]
      exact .limited (log.toList ++ [.upcoming s.steps s.machine.pc i]) rfl
        (Bool.eq_false_iff.2 hdone) (UInt64.toNat_inj.1 hleft) (by simp)
    | broken _ hlimit hstep =>
      have hlt := UInt64.lt_iff_toNat_lt.1 hlimit
      obtain ⟨left, rfl⟩ : ∃ n, left = n + 1 := ⟨left - 1, by omega⟩
      rw [runSteps, if_neg hdone, hstep]
      exact .failed (by simp [hlog])
    | going _ hlimit hstep =>
      have hlt := UInt64.lt_iff_toNat_lt.1 hlimit
      obtain ⟨left, rfl⟩ : ∃ n, left = n + 1 := ⟨left - 1, by omega⟩
      exact absurd rfl (hlast _ left rfl)

/-! ### From the start of a program -/

/-- The inputs that tell a dialogue to carry on at once. -/
def CarriesOn (input : Text) : Prop :=
  (lines input).head? = some (utf8 "c") ∨ (lines input).head? = some (utf8 "C")

theorem CarriesOn.exists_line {input : Text} (h : CarriesOn input) :
    ∃ line rest, lines input = line :: rest ∧ Command.ofLine line = .carryOn := by
  rcases h with h | h
  · obtain ⟨rest, hrest⟩ := List.head?_eq_some_iff.1 h
    exact ⟨_, rest, hrest, by decide⟩
  · obtain ⟨rest, hrest⟩ := List.head?_eq_some_iff.1 h
    exact ⟨_, rest, hrest, by decide⟩

theorem agree_ask (p : Program) {line : Text} (hline : Command.ofLine line = .carryOn)
    (rest : List Text) (log : Array Event) (hlog : .limitReached ∉ log) :
    Agree (start p) stepLimit.toNat ((start p).runSteps stepLimit stepLimit.toNat)
      (ask (line :: rest) (start p) log).log (ask (line :: rest) (start p) log).progress := by
  by_cases hdone : (start p).done = true
  · rw [ask_of_done hdone, runSteps_of_done hdone]
    exact .finished hdone hlog
  · have hagree := agree_carryOn stepLimit.toNat (start p) #[.carryingOn] (Nat.zero_add _) (by simp)
    have hanswer : (start p).answer (some line) =
        (start p).carryOn stepLimit.toNat #[.carryingOn] := by
      rw [answer, hline]
      rfl
    have hended : ∀ t, ((start p).answer (some line)).2 ≠ .going t := by
      rw [hanswer]
      exact (reaches_carryOn _ (start p) _ (Nat.le_add_left _ _)).ne_going
    rw [ask_of_ended hdone hended, hanswer]
    exact hagree.append (by simp [prompt, hlog])

theorem agree_of_carriesOn (p : Program) {input : Text} (h : CarriesOn input) :
    Agree (start p) stepLimit.toNat ((start p).runSteps stepLimit stepLimit.toNat)
      (ask (lines input) (start p) #[.opening]).log ((start p).converse input).progress := by
  obtain ⟨line, rest, hlines, hline⟩ := h.exists_line
  rw [converse, hlines]
  exact agree_ask p hline rest #[.opening] (by simp)

/-- If the run comes to its end, then so does the dialogue, and in the same session. -/
theorem stepThrough_of_run_ok {p : Program} {input : Text} (h : CarriesOn input)
    (hrun : ((start p).run stepLimit).result = .ok ()) :
    ((start p).stepThrough input).result = .ok () ∧
      ((start p).stepThrough input).session = ((start p).run stepLimit).session := by
  have hagree := agree_of_carriesOn p h
  rw [stepThrough_eq]
  rw [run] at hrun ⊢
  generalize (converse _ _).progress = progress at hagree ⊢
  generalize runSteps _ _ _ = r at hagree hrun ⊢
  cases hagree with
  | finished hdone hlog => exact ⟨rfl, rfl⟩
  | failed hlog => contradiction
  | limited _ ht hdone hsteps hlog => contradiction

/-- A dialogue that stops at the limit says so, and then has its last word. -/
theorem stdout_of_limit {input : Text} {before : List Event}
    (hlog : (ask (lines input) s #[.opening]).log.toList = before ++ [.limitReached])
    (hprogress : (s.converse input).progress = .over t) (hdone : t.done = false)
    (hsteps : t.steps = stepLimit) :
    (s.stepThrough input).stdout = before.flatMap Event.text
      ++ utf8 "[Stepping] Límite de pasos alcanzado.\n"
      ++ utf8 "\n[Stepping] Terminado (pasos=100000, halt=false).\n" := by
  have hend : (s.converse input).log.toList =
      before ++ [.limitReached] ++ (farewell (s.converse input).progress).toList := by
    rw [← hlog]
    exact Array.toList_append
  have hhalted : t.halted = false := (Bool.or_eq_false_iff.1 hdone).1
  have hclosing : (Event.closing stepLimit false).text =
      utf8 "\n[Stepping] Terminado (pasos=100000, halt=false).\n" := by decide +kernel
  rw [stepThrough_eq, hend, hprogress, farewell, hsteps, hhalted, ← hclosing]
  simp [Event.text]

/-- A run prints nothing but its notes. -/
theorem stdout_run (limit : UInt64) (s : Session) : (s.run limit).stdout = [] := by
  rw [run]
  split <;> rfl

end Session

/-! ### On the command line -/

namespace CommandLine

variable {name : Text} {args : List Text} {files : Files} {input : Text}

/-- A call that ends well had a source file that could be assembled. -/
theorem exists_program_of_code (h : (call name args files input).code = 0) :
    ¬ (Options.ofArgs args).path.isEmpty = true ∧
      ∃ p, assembleFile files (Options.ofArgs args).path = .ok p := by
  rw [call] at h
  by_cases hpath : (Options.ofArgs args).path.isEmpty = true
  · simp [hpath] at h
  · cases hp : assembleFile files (Options.ofArgs args).path with
    | error f => simp [hpath, hp] at h
    | ok p => exact ⟨hpath, p, rfl⟩

theorem call_eq_process {p : Program} (hpath : ¬ (Options.ofArgs args).path.isEmpty = true)
    (hp : assembleFile files (Options.ofArgs args).path = .ok p) :
    call name args files input = process (Options.ofArgs args) input p := by
  rw [call, if_neg hpath, hp]

theorem conclude_of_ok {o : Outcome Unit} (h : o.result = .ok ()) (printed : Text) :
    conclude printed o =
      { code := 0
        stdout := printed ++ o.stdout ++ (o.session.machine.registersDump
          ++ o.session.machine.memoryDump ++ o.session.machine.outputDump)
        stderr := o.stderr } := by
  rw [conclude, h, finalDump]

theorem result_of_conclude {o : Outcome Unit} {printed : Text}
    (h : (conclude printed o).code = 0) : o.result = .ok () := by
  rw [conclude] at h
  cases hresult : o.result with
  | ok _ => rfl
  | error f => simp [hresult] at h

end CommandLine

open Session CommandLine in
/-- The two drivers agree. The run under the usual limit and a dialogue that is told to carry on at
    once leave one session. Both come to the end of the program, or to the same fault, or they stop
    after exactly 100000 steps, which the one reports as a failure and the other in its last lines.
    So on the command line both ways end in the same dumps, if the run ends well. -/
theorem drivers_agree {input : Text} (h : CarriesOn input) :
    (∀ p : Program,
      ((start p).run stepLimit).session = ((start p).stepThrough input).session ∧
      (((start p).run stepLimit).session.done = true ∧
          ((start p).run stepLimit).result = .ok () ∧
          ((start p).stepThrough input).result = .ok () ∧
          .limitReached ∉ ((start p).converse input).log ∨
        (∃ f, ((start p).run stepLimit).result = .error (.fault f) ∧
          ((start p).stepThrough input).result = .error (.fault f) ∧
          .limitReached ∉ ((start p).converse input).log) ∨
        ((start p).run stepLimit).result =
            .error (.stepLimit stepLimit ((start p).run stepLimit).session.machine.pc) ∧
          ((start p).stepThrough input).result = .ok () ∧
          .limitReached ∈ ((start p).converse input).log ∧
          (∃ before, ((start p).stepThrough input).stdout = before
            ++ utf8 "[Stepping] Límite de pasos alcanzado.\n"
            ++ utf8 "\n[Stepping] Terminado (pasos=100000, halt=false).\n") ∧
          ((start p).run stepLimit).session = (start p).after 100000 ∧
          ((start p).run stepLimit).session.steps = 100000)) ∧
    ∀ (name : Text) (args args' : List Text) (files : Files) (stdin : Text),
      (Options.ofArgs args).run = true → (Options.ofArgs args).step = false →
      (Options.ofArgs args').step = true →
      (Options.ofArgs args').path = (Options.ofArgs args).path →
      (call name args files stdin).code = 0 →
      ∃ p m, assembleFile files (Options.ofArgs args).path = .ok p ∧
        m = ((start p).run stepLimit).session.machine ∧
        (call name args files stdin).stdout = (Options.ofArgs args).showing p
          ++ (m.registersDump ++ m.memoryDump ++ m.outputDump) ∧
        (call name args' files input).code = 0 ∧
        (call name args' files input).stdout =
          (Options.ofArgs args').showing p ++ ((start p).stepThrough input).stdout
            ++ (m.registersDump ++ m.memoryDump ++ m.outputDump) := by
  constructor
  · intro p
    have hagree := agree_of_carriesOn p h
    have hend : ((start p).converse input).log = (ask (lines input) (start p) #[.opening]).log
        ++ farewell ((start p).converse input).progress := rfl
    generalize hrun : runSteps _ _ _ = r at hagree
    generalize hprogress : (converse _ _).progress = progress at hagree
    generalize hasked : (ask _ _ _).log = log at hagree
    rw [hend, hprogress, hasked, Session.run, hrun]
    cases hagree with
    | finished hdone hlog =>
      rw [stepThrough_eq, hprogress]
      exact ⟨rfl, Or.inl ⟨hdone, rfl, rfl, by simp [farewell, hlog]⟩⟩
    | failed hlog =>
      rw [stepThrough_eq, hprogress]
      exact ⟨rfl, Or.inr (Or.inl ⟨_, rfl, rfl, by simp [farewell, hlog]⟩)⟩
    | limited before ht hdone hsteps hlog =>
      have hstdout := stdout_of_limit (hasked ▸ hlog) hprogress hdone hsteps
      have hmem : .limitReached ∈ log := by simp [← Array.mem_toList_iff, hlog]
      rw [hstdout, stepThrough_eq, hprogress]
      exact ⟨rfl, Or.inr (Or.inr ⟨rfl, rfl, by simp [hmem], ⟨_, rfl⟩, ht, hsteps⟩)⟩
  · intro name args args' files stdin hrun hstep hstep' hpath' hcode
    obtain ⟨hpath, p, hp⟩ := exists_program_of_code hcode
    have hcall : call name args files stdin =
        conclude ((Options.ofArgs args).showing p) ((start p).run stepLimit) := by
      rw [call_eq_process hpath hp, process, if_neg (by simp [hstep]), if_pos hrun]
    have hcall' : call name args' files input =
        conclude ((Options.ofArgs args').showing p) ((start p).stepThrough input) := by
      rw [call_eq_process (by rwa [hpath']) (by rwa [hpath']), process, if_pos hstep']
    rw [hcall] at hcode
    have hok := result_of_conclude hcode
    obtain ⟨hok', hsession⟩ := stepThrough_of_run_ok h hok
    refine ⟨p, ((start p).run stepLimit).session.machine, hp, rfl, ?_, ?_, ?_⟩
    · rw [hcall, conclude_of_ok hok, stdout_run, List.append_nil]
    · rw [hcall', conclude_of_ok hok']
    · rw [hcall', conclude_of_ok hok', hsession]

open Session CommandLine in
/-- A source file that is run and stepped through. -/
theorem drivers_agree_on_file :
    ∃ files p m, CarriesOn (utf8 "c\n") ∧
      (call (utf8 "cpu16") [utf8 "a.asm", utf8 "--run"] files []).code = 0 ∧
      m = ((start p).run stepLimit).session.machine ∧
      (call (utf8 "cpu16") [utf8 "a.asm", utf8 "--run"] files []).stdout =
        (Report.listing p).text ++ (m.registersDump ++ m.memoryDump ++ m.outputDump) ∧
      (call (utf8 "cpu16") [utf8 "--step", utf8 "a.asm"] files (utf8 "c\n")).stdout =
        (Report.listing p).text ++ ((start p).stepThrough (utf8 "c\n")).stdout
          ++ (m.registersDump ++ m.memoryDump ++ m.outputDump) := by
  let files : Files := fun path =>
    if path = utf8 "a.asm" then some (utf8 "mov4 R1 2\nmov1 R3 1\nreadm 7\nhalt") else none
  have hinput : CarriesOn (utf8 "c\n") := Or.inl (by decide)
  have hcode : (call (utf8 "cpu16") [utf8 "a.asm", utf8 "--run"] files []).code = 0 := by
    decide +kernel
  obtain ⟨p, m, -, hm, hrun, -, hstep⟩ := (drivers_agree hinput).2 (utf8 "cpu16")
    [utf8 "a.asm", utf8 "--run"] [utf8 "--step", utf8 "a.asm"] files [] (by decide) (by decide)
    (by decide) (by decide) hcode
  exact ⟨files, p, m, hinput, hcode, hm, hrun, hstep⟩

end NibbleMachine
