import NibbleMachine.Proofs.Execution
import NibbleMachine.Proofs.Programs
import NibbleMachine.Proofs.Stepping

/-!
What has been carried out since a program was loaded.

A call of `step` does one of three things: nothing, because the session is over; it carries out an
instruction; or the instruction fails and is passed over. The history of a session is the row of
operations that were carried out. Whatever loads, runs and dialogues have led to a session, what
has happened since the last load is a number of calls of `step` from the start of its program, so
an invariant of sessions and their histories has to be checked for one step only.
-/

namespace NibbleMachine

namespace Session

/-! ### One step -/

/-- The session after its next instruction is carried out, which has the operation `o`. -/
def carry (o : Operation) (s : Session) : Session :=
  { s with
    machine := (o.effect (s.machine.setPc (s.machine.pc + 1))).tick 1
    steps := s.steps + 1
    halted := s.halted || o.signal == .halt }

/-- The session after its next instruction has failed. -/
def pass (s : Session) : Session := { s with machine := s.machine.setPc (s.machine.pc + 1) }

theorem carry_time (o : Operation) (s : Session) :
    (s.carry o).machine.time = s.machine.time + 1 :=
  congrArg (· + 1) (o.effect_time (s.machine.setPc (s.machine.pc + 1)))

theorem carry_pc (o : Operation) (s : Session) :
    (s.carry o).machine.pc = s.machine.pc + 1 ∨
      ∃ rn target, o = .jz rn target ∧ (s.carry o).machine.pc = target :=
  o.effect_pc (s.machine.setPc (s.machine.pc + 1))

theorem next?_eq_some_iff {s : Session} {i : Instruction} :
    s.next? = some i ↔ s.halted = false ∧ s.program[s.machine.pc]? = some i := by
  rw [next?]
  cases s.halted <;> simp

/-- What a call of `step` can come to. -/
inductive StepCases (s : Session) : EStateM.Result Fault Session Bool → Prop
  | idle (h : s.next? = none) : StepCases s (.ok false s)
  | made {i : Instruction} (h : s.next? = some i) : StepCases s (.ok true (s.carry i.operation))
  | failed {i : Instruction} (h : s.next? = some i) (f : Fault) : StepCases s (.error f s.pass)

theorem step_cases (s : Session) : StepCases s s.step := by
  cases h : s.next? with
  | none =>
    rw [step_of_next?_eq_none h]
    exact .idle h
  | some i =>
    rw [step_of_next?_eq_some h]
    rcases i.operation.exec_atomic (s.machine.setPc (s.machine.pc + 1)) with hexec | ⟨f, hexec⟩
    · rw [hexec]
      exact .made h
    · rw [hexec]
      exact .failed h f

/-! ### Many steps -/

/-- The operation that a call of `step` carries out, if it does carry one out. -/
def carriedOut (s : Session) : Option Operation :=
  match s.step with
  | .ok true _ => s.next?.map (·.operation)
  | _ => none

/-- The operations that the first `k` calls of `step` carry out, in order. -/
def history (s : Session) : (k : Nat) → List Operation
  | 0 => []
  | k + 1 => s.history k ++ (s.after k).carriedOut.toList

theorem after_succ_eq_afterStep (k : Nat) (s : Session) : s.after (k + 1) = (s.after k).afterStep :=
  Function.iterate_succ_apply' afterStep k s

theorem history_add (s : Session) (j : Nat) : ∀ k : Nat,
    s.history (j + k) = s.history j ++ (s.after j).history k
  | 0 => by rw [Nat.add_zero, history, List.append_nil]
  | k + 1 => by
    rw [← Nat.add_assoc, history, history, history_add s j k, after_add_left, List.append_assoc]

/-- What holds at first, is kept when an instruction is carried out and is kept when one fails
    holds after any number of steps. -/
theorem history_induction {P : List Operation → Session → Prop} {s : Session} (start : P [] s)
    (carry : ∀ {ops : List Operation} {t : Session} {i : Instruction}, P ops t →
      t.next? = some i → P (ops ++ [i.operation]) (t.carry i.operation))
    (pass : ∀ {ops : List Operation} {t : Session} {i : Instruction}, P ops t →
      t.next? = some i → P ops t.pass) :
    ∀ k : Nat, P (s.history k) (s.after k)
  | 0 => start
  | k + 1 => by
    have ih := history_induction start carry pass k
    rw [history, after_succ_eq_afterStep, carriedOut, afterStep]
    generalize hr : (s.after k).step = r
    have hcases := step_cases (s.after k)
    rw [hr] at hcases
    cases hcases with
    | idle h => simpa [stateOf] using ih
    | made h => simpa [stateOf, h] using carry ih h
    | failed h f => simpa [stateOf] using pass ih h

/-- What is true of a fresh machine, has nothing to do with program counter and clock and is kept by
    every instruction of a program is true of its machine after any number of steps. -/
theorem machine_induction {P : Machine → Prop} {p : Program} (fresh : P {})
    (setPc : ∀ {m : Machine} (pc : Nat), P m → P (m.setPc pc))
    (tick : ∀ {m : Machine}, P m → P (m.tick 1))
    (effect : ∀ {m : Machine} {i : Instruction}, P m → i ∈ p.toList → P (i.operation.effect m))
    (k : Nat) : P ((start p).after k).machine := by
  have h := history_induction (P := fun _ t => t.program = p ∧ P t.machine) (s := start p)
    ⟨rfl, fresh⟩ ?_ ?_ k
  · exact h.2
  · rintro ops t i ⟨rfl, ht⟩ hi
    exact ⟨rfl, tick (effect (setPc _ ht) (mem_program_of_next? hi))⟩
  · rintro ops t i ⟨rfl, ht⟩ _
    exact ⟨rfl, setPc _ ht⟩

/-! ### Requests -/

/-- The requests that load a source, from a text or from a file. -/
def Request.loads : Request → Bool
  | .loadSource _ => true
  | .loadFile _ => true
  | _ => false

/-- `Traced files p ops s`: from the start of the program `p`, requests to load a source and to let
    the program run have led to the session `s`, be it that some of them have failed, and `ops` is
    what was carried out since the last load that did not. -/
inductive Traced (files : Files) (p : Program) : List Operation → Session → Prop
  | start : Traced files p [] (start p)
  | load {ops : List Operation} {s : Session} {r : Request} {a : Answer} (h : Traced files p ops s)
      (hr : r.loads = true) (ha : (s.perform files r).result = .ok a) :
      Traced files p [] (s.perform files r).session
  | refusal {ops : List Operation} {s : Session} {r : Request} {e : Failure}
      (h : Traced files p ops s) (hr : r.loads = true)
      (he : (s.perform files r).result = .error e) :
      Traced files p ops (s.perform files r).session
  | drive {ops : List Operation} {s : Session} {r : Request} {k : Nat} (h : Traced files p ops s)
      (hr : r.drives = true) (hk : (s.perform files r).session = s.after k) :
      Traced files p (ops ++ s.history k) (s.perform files r).session

theorem perform_loads_of_ok {files : Files} {s : Session} {r : Request} {a : Answer}
    (hr : r.loads = true) (ha : (s.perform files r).result = .ok a) :
    ∃ q source, assemble source = .ok q ∧ (s.perform files r).session = Session.start q := by
  cases r with
  | loadSource source =>
    rw [perform, loadSource] at ha ⊢
    cases hq : assemble source with
    | error r => simp [hq, load, quiet] at ha
    | ok q => exact ⟨q, source, hq, rfl⟩
  | loadFile path =>
    rw [perform, loadFile, assembleFile] at ha ⊢
    cases hfile : files (Text.untilNul path) with
    | none => simp [hfile, load, quiet] at ha
    | some source =>
      cases hq : assemble source with
      | error r => simp [hfile, hq, load, quiet] at ha
      | ok q => exact ⟨q, source, hq, by simp [hq, load, quiet]⟩
  | _ => simp [Request.loads] at hr

/-- A load that fails does nothing else. -/
theorem perform_loads_of_error {files : Files} {s : Session} {r : Request} {e : Failure}
    (hr : r.loads = true) (he : (s.perform files r).result = .error e) :
    s.perform files r = { session := s, result := .error e } := by
  have hload : ∀ q : Except Failure Program, (quiet (fun _ => .nothing) (load q s)).result =
      .error e → quiet (fun _ => .nothing) (load q s) = { session := s, result := .error e } := by
    intro q hq
    cases q with
    | ok q => simp [load, quiet] at hq
    | error e' =>
      obtain rfl : e' = e := Except.error.inj hq
      rfl
  cases r with
  | loadSource source => exact hload _ he
  | loadFile path => exact hload _ he
  | _ => simp [Request.loads] at hr

theorem session_perform_step (files : Files) (s : Session) :
    (s.perform files .step).session = s.afterStep := by
  rw [perform, EStateM.adaptExcept, afterStep]
  cases s.step <;> rfl

namespace Traced

variable {files : Files} {p : Program} {ops : List Operation} {s : Session}

/-- Whatever a request comes to, there is a history that goes with it. -/
theorem perform (h : Traced files p ops s) {r : Request}
    (hr : r.loads = true ∨ r.drives = true) :
    ∃ ops', Traced files p ops' (s.perform files r).session := by
  rcases hr with hr | hr
  · cases hresult : (s.perform files r).result with
    | ok a => exact ⟨_, h.load hr hresult⟩
    | error e => exact ⟨_, h.refusal hr hresult⟩
  · obtain ⟨k, hk⟩ := (ran_perform files hr s).exists_after
    exact ⟨_, h.drive hr hk⟩

/-- A row of requests to load and to run goes through sessions that have a history. -/
theorem performAll : ∀ {rs : List Request} {ops : List Operation} {s : Session},
    Traced files p ops s → (∀ r ∈ rs, r.loads = true ∨ r.drives = true) →
    ∀ o ∈ s.performAll files rs, ∃ ops', Traced files p ops' o.session
  | [], _, _, _, _, o, ho => by simp [Session.performAll] at ho
  | r :: rs, ops, s, h, hrs, o, ho => by
    obtain ⟨ops', h'⟩ := h.perform (hrs r (by simp))
    rw [Session.performAll] at ho
    rcases List.mem_cons.1 ho with rfl | ho
    · exact ⟨ops', h'⟩
    · exact performAll h' (fun r hr => hrs r (List.mem_cons_of_mem _ hr)) o ho

/-- Any number of steps may be asked for. -/
theorem after (h : Traced files p ops s) : ∀ k : Nat,
    Traced files p (ops ++ s.history k) (s.after k)
  | 0 => by
    rw [history, List.append_nil]
    exact h
  | k + 1 => by
    have hstep := session_perform_step files (s.after k)
    have hk := (h.after k).drive (r := .step) (k := 1) rfl hstep
    rw [hstep, ← after_succ_eq_afterStep, List.append_assoc] at hk
    exact hk

/-- What has happened since the last load is a number of steps from the start of a program. -/
theorem exists_history (h : Traced files p ops s) :
    ∃ q k, (q = p ∨ ∃ source, assemble source = .ok q) ∧ s = (Session.start q).after k ∧
      ops = (Session.start q).history k := by
  induction h with
  | start => exact ⟨p, 0, Or.inl rfl, rfl, rfl⟩
  | load _ hr ha =>
    obtain ⟨q, source, hq, hs⟩ := perform_loads_of_ok hr ha
    exact ⟨q, 0, Or.inr ⟨source, hq⟩, hs, rfl⟩
  | refusal _ hr he ih =>
    rw [perform_loads_of_error hr he]
    exact ih
  | drive _ hr hk ih =>
    obtain ⟨q, j, hq, rfl, rfl⟩ := ih
    refine ⟨q, j + _, hq, ?_, (history_add _ j _).symm⟩
    rw [hk, after_add_left]

/-- The program of such a session is the one that was there first, or it was assembled. -/
theorem program (h : Traced files p ops s) :
    s.program = p ∨ ∃ source, assemble source = .ok s.program := by
  obtain ⟨q, k, hq, rfl, -⟩ := h.exists_history
  rw [after_program]
  exact hq

theorem assembled (h : Traced files p ops s) (hp : p.Assembled) : s.program.Assembled := by
  rcases h.program with hs | ⟨source, hs⟩
  · rwa [hs]
  · exact assembled_of_assemble hs

/-- An invariant of sessions and their histories has to be checked at the start of the program and
    for one instruction. -/
theorem induction_on {P : List Operation → Session → Prop} (h : Traced files p ops s)
    (start : P [] (Session.start s.program))
    (carry : ∀ {ops : List Operation} {t : Session} {i : Instruction}, P ops t →
      t.next? = some i → P (ops ++ [i.operation]) (t.carry i.operation))
    (pass : ∀ {ops : List Operation} {t : Session} {i : Instruction}, P ops t →
      t.next? = some i → P ops t.pass) :
    P ops s := by
  obtain ⟨q, k, -, rfl, rfl⟩ := h.exists_history
  rw [after_program] at start
  exact history_induction start carry pass k

/-- Whatever was carried out is in the program. -/
theorem mem_program (h : Traced files p ops s) :
    ∀ o ∈ ops, ∃ i ∈ s.program.toList, i.operation = o := by
  refine h.induction_on (P := fun ops t => ∀ o ∈ ops, ∃ i ∈ t.program.toList, i.operation = o)
    (by simp) ?_ ?_
  · intro ops t i ht hi o ho
    have hmem := mem_program_of_next? hi
    rcases List.mem_append.1 ho with ho | ho
    · exact ht o ho
    · exact ⟨i, hmem, (List.mem_singleton.1 ho).symm⟩
  · intro ops t i ht _
    exact ht

end Traced

end Session

end NibbleMachine
