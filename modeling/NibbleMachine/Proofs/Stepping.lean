import Mathlib.Logic.Function.Iterate
import NibbleMachine.Session.Request

/-!
Every way to let a program run is stepping. A run and a dialogue leave the session that some number
of calls of `step` leaves, and if a fault ends them it is the fault of one of these calls. So what
every step keeps is kept in every session that a source leads to.
-/

namespace NibbleMachine

namespace Session

/-- The state that a piece of work leaves, whether it failed or not. -/
def stateOf {ε σ α : Type} : EStateM.Result ε σ α → σ
  | .ok _ t => t
  | .error _ t => t

/-- What a piece of work tells. -/
def resultOf {ε σ α : Type} : EStateM.Result ε σ α → Except ε α
  | .ok a _ => .ok a
  | .error e _ => .error e

/-- The session that a call of `step` leaves, be it after a fault. -/
def afterStep (s : Session) : Session := stateOf s.step

/-- What a call of `step` tells: whether there was an instruction, or the fault. -/
def stepResult (s : Session) : Except Fault Bool := resultOf s.step

/-- The session that `k` calls of `step` leave. -/
def after (k : Nat) (s : Session) : Session := afterStep^[k] s

theorem after_succ (k : Nat) (s : Session) : s.after (k + 1) = s.afterStep.after k := rfl

theorem after_add (j k : Nat) (s : Session) : s.after (j + k) = (s.after k).after j :=
  Function.iterate_add_apply afterStep j k s

theorem after_add_left (j k : Nat) (s : Session) : s.after (j + k) = (s.after j).after k := by
  rw [Nat.add_comm, after_add]

/-! ### One step -/

variable {s t : Session} {more : Bool} {f : Fault}

theorem afterStep_of_ok (h : s.step = .ok more t) : s.afterStep = t := by rw [afterStep, h, stateOf]

theorem afterStep_of_error (h : s.step = .error f t) : s.afterStep = t := by
  rw [afterStep, h, stateOf]

theorem stepResult_of_ok (h : s.step = .ok more t) : s.stepResult = .ok more := by
  rw [stepResult, h, resultOf]

theorem stepResult_of_error (h : s.step = .error f t) : s.stepResult = .error f := by
  rw [stepResult, h, resultOf]

theorem mem_program_of_next? {s : Session} {i : Instruction} (h : s.next? = some i) :
    i ∈ s.program.toList := by
  rw [next?] at h
  split at h
  · contradiction
  · exact Array.mem_toList_iff.2 (Array.mem_of_getElem? h)

theorem step_of_next?_eq_none {s : Session} (h : s.next? = none) : s.step = .ok false s := by
  rw [step, h]

/-- A step with an instruction moves the program counter on and carries the instruction out. -/
theorem step_of_next?_eq_some {s : Session} {i : Instruction} (h : s.next? = some i) :
    s.step = match i.operation.exec (s.machine.setPc (s.machine.pc + 1)) with
      | .ok signal m =>
        .ok true ⟨s.program, m.tick 1, s.steps + 1, s.halted || signal == .halt⟩
      | .error f m => .error f ⟨s.program, m, s.steps, s.halted⟩ := by
  cases hexec : i.operation.exec (s.machine.setPc (s.machine.pc + 1)) with
  | ok signal m => simp only [step, h, hexec]
  | error f m => simp only [step, h, hexec]

/-- A step fails exactly if its instruction does. -/
theorem stepResult_eq_error_iff_exec {s : Session} {i : Instruction} (h : s.next? = some i)
    {f : Fault} : s.stepResult = .error f ↔
      ∃ m, i.operation.exec (s.machine.setPc (s.machine.pc + 1)) = .error f m := by
  rw [stepResult, step_of_next?_eq_some h]
  cases i.operation.exec (s.machine.setPc (s.machine.pc + 1)) <;> simp [resultOf]

theorem afterStep_program (s : Session) : s.afterStep.program = s.program := by
  rw [afterStep]
  cases h : s.next? with
  | none => rw [step_of_next?_eq_none h, stateOf]
  | some i =>
    rw [step_of_next?_eq_some h]
    cases i.operation.exec (s.machine.setPc (s.machine.pc + 1)) <;> rfl

theorem after_program : ∀ (k : Nat) (s : Session), (s.after k).program = s.program
  | 0, _ => rfl
  | k + 1, s => by rw [after_succ, after_program k, afterStep_program]

/-! ### Runs -/

/-- `Ran s t f`: calls of `step` lead from `s` to `t`, and `f` is the fault of the last one, if that
    was the end. -/
inductive Ran : Session → Session → Option Fault → Prop
  | here (s : Session) : Ran s s none
  | broken {s : Session} {f : Fault} (h : s.stepResult = .error f) : Ran s s.afterStep (some f)
  | step {s t : Session} {f : Option Fault} (h : Ran s.afterStep t f) : Ran s t f

theorem Ran.trans {s t u : Session} {f : Option Fault} (hst : Ran s t none) (htu : Ran t u f) :
    Ran s u f := by
  generalize hnone : none = g at hst
  induction hst with
  | here => exact htu
  | broken => contradiction
  | step _ ih => exact .step (ih htu hnone)

theorem Ran.exists_after {s t : Session} {f : Option Fault} (h : Ran s t f) :
    ∃ k, t = s.after k := by
  induction h with
  | here s => exact ⟨0, rfl⟩
  | broken => exact ⟨1, rfl⟩
  | step _ ih =>
    obtain ⟨k, rfl⟩ := ih
    exact ⟨k + 1, rfl⟩

theorem Ran.exists_fault {s t : Session} {f : Fault} (h : Ran s t (some f)) :
    ∃ k, (s.after k).stepResult = .error f := by
  generalize hsome : some f = g at h
  induction h with
  | here => contradiction
  | broken h =>
    cases hsome
    exact ⟨0, h⟩
  | step _ ih =>
    obtain ⟨k, hk⟩ := ih hsome
    exact ⟨k + 1, hk⟩

/-- A step that is made leads on. -/
theorem ran_of_step_ok {s t : Session} {more : Bool} (h : s.step = .ok more t) : Ran s t none :=
  .step (afterStep_of_ok h ▸ .here _)

/-- A step that fails is the last one. -/
theorem ran_of_step_error {s t : Session} {f : Fault} (h : s.step = .error f t) :
    Ran s t (some f) := by
  rw [← afterStep_of_error h]
  exact .broken (stepResult_of_error h)

/-! ### The run to the end -/

/-- The fault in a result, if a fault is what ended it. -/
def faultOf {α : Type} : Except Failure α → Option Fault
  | .error (.fault f) => some f
  | _ => none

theorem ran_runSteps (limit : UInt64) : ∀ (left : Nat) (s : Session),
    Ran s (stateOf (s.runSteps limit left)) (faultOf (resultOf (s.runSteps limit left)))
  | 0, s => by
    rw [runSteps]
    split <;> exact .here s
  | left + 1, s => by
    rw [runSteps]
    by_cases hdone : s.done = true
    · rw [if_pos hdone]
      exact .here s
    · rw [if_neg hdone]
      cases hstep : s.step with
      | ok more t => exact (ran_of_step_ok hstep).trans (ran_runSteps limit left t)
      | error f t => exact ran_of_step_error hstep

theorem ran_run (limit : UInt64) (s : Session) :
    Ran s (s.run limit).session (faultOf (s.run limit).result) := by
  have h := ran_runSteps limit limit.toNat s
  rw [run]
  cases heq : s.runSteps limit limit.toNat with
  | ok a t => rwa [heq] at h
  | error e t => rwa [heq] at h

end Session

/-! ### Dialogues -/

/-- The session that a dialogue has come to. -/
def Progress.session : Progress → Session
  | .going s => s
  | .over s => s
  | .broken s _ => s

/-- The fault that has broken a dialogue off. -/
def Progress.fault? : Progress → Option Fault
  | .broken _ f => some f
  | _ => none

/-- An event that tells of a session as it stands. -/
def Event.About (s : Session) : Event → Prop
  | .prompt steps pc => steps = s.steps ∧ pc = s.machine.pc
  | .registers m => m = s.machine
  | .memory m => m = s.machine
  | .upcoming steps pc i => steps = s.steps ∧ pc = s.machine.pc ∧ s.next? = some i
  | .limitReached => s.done = false ∧ Session.stepLimit ≤ s.steps
  | .closing steps halted => steps = s.steps ∧ halted = s.halted
  | .stepped .. => False
  | _ => True

namespace Session

/-- What an announced step can come to in a session that is not over. -/
inductive AdvanceCases (s : Session) : List Event × Progress → Prop
  | limit {i : Instruction} (hnext : s.next? = some i) (h : stepLimit ≤ s.steps) :
      AdvanceCases s ([.upcoming s.steps s.machine.pc i, .limitReached], .over s)
  | going {i : Instruction} {t : Session} (hnext : s.next? = some i) (h : s.steps < stepLimit)
      (hstep : s.step = .ok true t) :
      AdvanceCases s ([.upcoming s.steps s.machine.pc i,
        .stepped s.machine.registers t.machine.registers t.machine.pc], .going t)
  | broken {i : Instruction} {t : Session} {f : Fault} (hnext : s.next? = some i)
      (h : s.steps < stepLimit) (hstep : s.step = .error f t) :
      AdvanceCases s ([.upcoming s.steps s.machine.pc i], .broken t f)

theorem advance_cases {s : Session} (hdone : ¬ s.done = true) : AdvanceCases s s.advance := by
  cases hnext : s.next? with
  | none => exact absurd ((next?_eq_none_iff s).1 hnext) hdone
  | some i =>
    have hstep := step_of_next?_eq_some hnext
    rw [advance, hnext]
    simp only
    by_cases hlimit : stepLimit ≤ s.steps
    · rw [if_pos hlimit]
      exact .limit hnext hlimit
    · rw [if_neg hlimit]
      have hlt := UInt64.not_le.1 hlimit
      cases hexec : i.operation.exec (s.machine.setPc (s.machine.pc + 1)) with
      | ok signal m =>
        simp only [hexec] at hstep
        rw [hstep]
        exact .going hnext hlt hstep
      | error f m =>
        simp only [hexec] at hstep
        rw [hstep]
        exact .broken hnext hlt hstep

/-- `Held s events progress`: a dialogue that stands at the session `s` has these events and comes
    to `progress`. The events are those of the steps that are made, and between them any that tell
    of the session as it stands. What is true of all dialogues is shown by induction on this. -/
inductive Held : Session → List Event → Progress → Prop
  | going (s : Session) : Held s [] (.going s)
  | ended (s : Session) : Held s [] (.over s)
  | broken {s t : Session} {i : Instruction} {f : Fault} (hnext : s.next? = some i)
      (hstep : s.step = .error f t) : Held s [.upcoming s.steps s.machine.pc i] (.broken t f)
  | aside {s : Session} {e : Event} {events : List Event} {progress : Progress} (he : e.About s)
      (h : Held s events progress) : Held s (e :: events) progress
  | step {s t : Session} {i : Instruction} {events : List Event} {progress : Progress}
      (hnext : s.next? = some i) (hstep : s.step = .ok true t) (h : Held t events progress) :
      Held s (.upcoming s.steps s.machine.pc i
        :: .stepped s.machine.registers t.machine.registers t.machine.pc :: events) progress

theorem Held.append {s : Session} {events events' : List Event} {progress progress' : Progress}
    (h : Held s events progress) (hfault : progress.fault? = none)
    (h' : Held progress.session events' progress') : Held s (events ++ events') progress' := by
  induction h with
  | going s => exact h'
  | ended s => exact h'
  | broken hnext hstep => contradiction
  | aside he _ ih => exact .aside he (ih hfault h')
  | step hnext hstep _ ih => exact .step hnext hstep (ih hfault h')

theorem held_advance (s : Session) : Held s s.advance.1 s.advance.2 := by
  by_cases hdone : s.done = true
  · rw [advance, (next?_eq_none_iff s).2 hdone]
    exact .ended s
  · have hcases := advance_cases hdone
    generalize s.advance = made at hcases ⊢
    cases hcases with
    | limit hnext hlimit =>
      exact .aside ⟨rfl, rfl, hnext⟩ (.aside ⟨Bool.eq_false_iff.2 hdone, hlimit⟩ (.ended s))
    | going hnext _ hstep => exact .step hnext hstep (.going _)
    | broken hnext _ hstep => exact .broken hnext hstep

theorem held_carryOn (left : Nat) (s : Session) (log : Array Event) :
    ∃ events, (s.carryOn left log).1.toList = log.toList ++ events ∧
      Held s events (s.carryOn left log).2 := by
  fun_induction carryOn left s log with
  | case1 left s log hdone => exact ⟨[], by simp, .ended s⟩
  | case2 s log hdone events t left hadvance ih =>
    have hheld := held_advance s
    rw [hadvance] at hheld
    obtain ⟨events', hlog, hrest⟩ := ih
    exact ⟨events ++ events', by simp [hlog], hheld.append rfl hrest⟩
  | case3 left s log hdone events progress hadvance hlast =>
    have hheld := held_advance s
    rw [hadvance] at hheld
    exact ⟨events, by simp, hheld⟩

theorem held_answer (s : Session) (line : Option Text) :
    Held s (s.answer line).1.toList (s.answer line).2 := by
  cases line with
  | none => exact .aside trivial (.ended s)
  | some line =>
    rw [answer]
    cases Command.ofLine line with
    | quit => exact .aside trivial (.ended s)
    | carryOn =>
      obtain ⟨events, hlog, hheld⟩ :=
        held_carryOn (stepLimit.toNat - s.steps.toNat) s #[.carryingOn]
      rw [hlog]
      exact .aside trivial hheld
    | registers => exact .aside rfl (.going s)
    | memory => exact .aside rfl (.going s)
    | step => exact held_advance s

theorem held_ask (lines : List Text) (s : Session) (log : Array Event) :
    ∃ events, (ask lines s log).log.toList = log.toList ++ events ∧
      Held s events (ask lines s log).progress := by
  have hprompt : ∀ s : Session, s.prompt.About s := fun s => ⟨rfl, rfl⟩
  fun_induction ask lines s log with
  | case1 lines s log hdone => exact ⟨[], by simp, .ended s⟩
  | case2 s log hdone events progress hanswer =>
    have hheld := held_answer s none
    rw [hanswer] at hheld
    exact ⟨s.prompt :: events.toList, by simp, .aside (hprompt s) hheld⟩
  | case3 s log hdone line lines events t hanswer ih =>
    have hheld := held_answer s (some line)
    rw [hanswer] at hheld
    obtain ⟨events', hlog, hrest⟩ := ih
    exact ⟨s.prompt :: (events.toList ++ events'), by simp [hlog],
      .aside (hprompt s) (hheld.append rfl hrest)⟩
  | case4 s log hdone line lines events progress hlast hanswer =>
    have hheld := held_answer s (some line)
    rw [hanswer] at hheld
    exact ⟨s.prompt :: events.toList, by simp, .aside (hprompt s) hheld⟩

/-- The whole dialogue, with its first and its last word. -/
theorem held_converse (input : Text) (s : Session) :
    Held s (s.converse input).log.toList (s.converse input).progress := by
  obtain ⟨events, hlog, hheld⟩ := held_ask (Text.lines input) s #[.opening]
  rw [converse]
  generalize ask (Text.lines input) s #[.opening] = d at hlog hheld ⊢
  obtain ⟨log, progress, unread⟩ := d
  rw [Array.toList_append, hlog]
  have hclosing : ∀ t : Session, (Event.closing t.steps t.halted).About t := fun t => ⟨rfl, rfl⟩
  rcases progress with t | t | ⟨t, f⟩
  · exact .aside trivial (hheld.append rfl (.aside (hclosing t) (.going t)))
  · exact .aside trivial (hheld.append rfl (.aside (hclosing t) (.ended t)))
  · rw [farewell, List.append_nil]
    exact .aside trivial hheld

theorem Held.ran {s : Session} {events : List Event} {progress : Progress}
    (h : Held s events progress) : Ran s progress.session progress.fault? := by
  induction h with
  | going s => exact .here s
  | ended s => exact .here s
  | broken _ hstep => exact ran_of_step_error hstep
  | aside _ _ ih => exact ih
  | step _ hstep _ ih => exact (ran_of_step_ok hstep).trans ih

/-- Stepping through a session prints the events of the dialogue, and leaves the session and the
    input where the dialogue has left them. -/
theorem stepThrough_eq (input : Text) (s : Session) : s.stepThrough input =
    { session := (s.converse input).progress.session
      result := (s.converse input).progress.fault?.elim (.ok ()) fun f => .error (.fault f)
      stdout := (s.converse input).log.toList.flatMap Event.text
      unread := (s.converse input).unread } := by
  rw [stepThrough]
  generalize s.converse input = d
  obtain ⟨log, progress, unread⟩ := d
  rcases progress with t | t | ⟨t, f⟩ <;> rfl

theorem ran_stepThrough (input : Text) (s : Session) :
    Ran s (s.stepThrough input).session (faultOf (s.stepThrough input).result) := by
  have h := (held_converse input s).ran
  rw [stepThrough_eq]
  generalize (s.converse input).progress = progress at h ⊢
  rcases progress with t | t | ⟨t, f⟩ <;> exact h

/-! ### Requests -/

/-- The requests that let a program run: a step, a run and a dialogue. -/
def Request.drives : Request → Bool
  | .step => true
  | .run _ => true
  | .stepThrough _ => true
  | _ => false

theorem ran_mute {s : Session} {o : Outcome Unit} (h : Ran s o.session (faultOf o.result)) :
    Ran s (mute o).session (faultOf (mute o).result) := by
  have hfault : faultOf (mute o).result = faultOf o.result := by
    rw [mute]
    cases o.result with
    | ok a => rfl
    | error e => cases e <;> rfl
  rwa [hfault]

theorem ran_perform (files : Files) {r : Request} (hr : r.drives = true) (s : Session) :
    Ran s (s.perform files r).session (faultOf (s.perform files r).result) := by
  cases r with
  | step =>
    rw [perform, EStateM.adaptExcept]
    cases hstep : s.step with
    | ok more t => exact ran_of_step_ok hstep
    | error f t => exact ran_of_step_error hstep
  | run limit => exact ran_mute (ran_run limit s)
  | stepThrough input => exact ran_mute (ran_stepThrough input s)
  | _ => simp [Request.drives] at hr

/-- The sessions that a source leads to: it is loaded, and then any requests to let it run are
    carried out, be it that some of them end in a failure. -/
inductive Driven (files : Files) (source : Text) : Session → Prop
  | load {s t : Session} (h : loadSource source s = .ok () t) : Driven files source t
  | request {t : Session} {r : Request} (h : Driven files source t) (hr : r.drives = true) :
      Driven files source (t.perform files r).session

theorem loadSource_eq_ok_iff {source : Text} {s t : Session} :
    loadSource source s = .ok () t ↔ ∃ p, assemble source = .ok p ∧ t = start p := by
  rw [loadSource]
  cases assemble source with
  | error r => simp [load]
  | ok p => simp [load, eq_comm]

/-- They are the sessions that steps lead to from the start of the program. -/
theorem Driven.exists_after {files : Files} {source : Text} {t : Session}
    (h : Driven files source t) :
    ∃ p k, assemble source = .ok p ∧ t = (start p).after k := by
  induction h with
  | load h =>
    obtain ⟨p, hp, rfl⟩ := loadSource_eq_ok_iff.1 h
    exact ⟨p, 0, hp, rfl⟩
  | @request t r _ hr ih =>
    obtain ⟨p, k, hp, rfl⟩ := ih
    obtain ⟨j, hj⟩ := (ran_perform files hr ((start p).after k)).exists_after
    refine ⟨p, j + k, hp, ?_⟩
    rw [after_add, hj]

end Session

end NibbleMachine
