import NibbleMachine.Proofs.History

/-!
What a run can come to. A run makes steps as long as they succeed, and there are three ways for it
to end: the session is over, a step fails, or its allowance of steps is used up. In each of them
the number of steps that were made says which session is left.
-/

namespace NibbleMachine.Session

variable {s t : Session}

/-! ### Steps -/

/-- The next call of `step` carries an instruction out. -/
def Goes (s : Session) : Prop := s.stepResult = .ok true

instance (s : Session) : Decidable s.Goes := inferInstanceAs (Decidable (s.stepResult = .ok true))

theorem afterStep_of_done (h : s.done = true) : s.afterStep = s :=
  afterStep_of_ok (step_of_next?_eq_none ((next?_eq_none_iff s).2 h))

theorem stepResult_of_done (h : s.done = true) : s.stepResult = .ok false :=
  stepResult_of_ok (step_of_next?_eq_none ((next?_eq_none_iff s).2 h))

theorem not_done_of_error {f : Fault} (h : s.stepResult = .error f) : s.done = false := by
  cases hdone : s.done with
  | false => rfl
  | true =>
    rw [stepResult_of_done hdone] at h
    contradiction

theorem after_of_done (h : s.done = true) : ∀ k : Nat, s.after k = s
  | 0 => rfl
  | k + 1 => by rw [after_succ, afterStep_of_done h, after_of_done h k]

/-- A session that is not over was not over before. -/
theorem not_done_of_le {i j : Nat} (hij : i ≤ j) (h : (s.after j).done = false) :
    (s.after i).done = false := by
  obtain ⟨k, rfl⟩ := Nat.exists_eq_add_of_le' hij
  rw [after_add] at h
  cases hdone : (s.after i).done with
  | false => rfl
  | true => rwa [after_of_done hdone, hdone] at h

/-- A session that is not over makes its next step or fails in it. -/
theorem goes_or_fails (h : s.done = false) : s.Goes ∨ ∃ f, s.stepResult = .error f := by
  have hcases := step_cases s
  generalize hstep : s.step = r at hcases
  cases hcases with
  | idle hnext =>
    rw [(next?_eq_none_iff s).1 hnext] at h
    contradiction
  | made _ => exact Or.inl (stepResult_of_ok hstep)
  | failed _ f => exact Or.inr ⟨f, stepResult_of_error hstep⟩

theorem Goes.not_done (h : s.Goes) : s.done = false := by
  cases hdone : s.done with
  | false => rfl
  | true =>
    rw [Goes, stepResult_of_done hdone] at h
    simp at h

/-- A call of `step` is what it tells and the session that it leaves. -/
theorem step_eq (s : Session) : s.step = match s.stepResult with
    | .ok more => .ok more s.afterStep
    | .error f => .error f s.afterStep := by
  rw [stepResult, afterStep]
  cases s.step <;> rfl

theorem Goes.step_eq (h : s.Goes) : s.step = .ok true s.afterStep := by
  rw [Goes] at h
  rw [Session.step_eq, h]

theorem step_eq_error {f : Fault} (h : s.stepResult = .error f) :
    s.step = .error f s.afterStep := by
  rw [Session.step_eq, h]

/-- A step that fails has passed over its instruction and done nothing else. -/
theorem afterStep_of_fault {f : Fault} (h : s.stepResult = .error f) :
    s.afterStep = s.pass := by
  have hcases := step_cases s
  rw [step_eq_error h] at hcases
  generalize s.afterStep = t at hcases ⊢
  cases hcases with
  | failed _ _ => rfl

/-! ### Runs -/

/-- What a run of at most `left` steps can come to, and the session that it leaves. -/
inductive RunCases (limit : UInt64) (s : Session) (left : Nat) :
    Except Failure Unit → Session → Prop
  | finished {k : Nat} (hk : k ≤ left) (hgoes : ∀ j < k, (s.after j).Goes)
      (hdone : (s.after k).done = true) : RunCases limit s left (.ok ()) (s.after k)
  | failed {k : Nat} {f : Fault} (hk : k < left) (hgoes : ∀ j < k, (s.after j).Goes)
      (hfault : (s.after k).stepResult = .error f) :
      RunCases limit s left (.error (.fault f)) (s.after (k + 1))
  | limited (hgoes : ∀ j < left, (s.after j).Goes) (hdone : (s.after left).done = false) :
      RunCases limit s left (.error (.stepLimit limit (s.after left).machine.pc)) (s.after left)

/-- One step more in front of a run. -/
theorem RunCases.of_goes {limit : UInt64} {left : Nat} {result : Except Failure Unit}
    (h : s.Goes) (hrun : RunCases limit s.afterStep left result t) :
    RunCases limit s (left + 1) result t := by
  have hgoes : ∀ {k : Nat}, (∀ j < k, (s.afterStep.after j).Goes) →
      ∀ j < k + 1, (s.after j).Goes := by
    intro k hk j hj
    cases j with
    | zero => exact h
    | succ j => exact hk j (Nat.lt_of_succ_lt_succ hj)
  cases hrun with
  | finished hk hsteps hdone =>
    exact .finished (k := _ + 1) (Nat.succ_le_succ hk) (hgoes hsteps) hdone
  | failed hk hsteps hfault =>
    exact .failed (k := _ + 1) (Nat.succ_lt_succ hk) (hgoes hsteps) hfault
  | limited hsteps hdone => exact @RunCases.limited limit s (_ + 1) (hgoes hsteps) hdone

theorem runSteps_cases (limit : UInt64) : ∀ (left : Nat) (s : Session),
    RunCases limit s left (resultOf (s.runSteps limit left)) (stateOf (s.runSteps limit left))
  | 0, s => by
    rw [runSteps]
    cases hdone : s.done with
    | true => exact .finished (k := 0) (Nat.le_refl 0) (by simp) hdone
    | false => exact .limited (by simp) hdone
  | left + 1, s => by
    rw [runSteps]
    cases hdone : s.done with
    | true => exact .finished (k := 0) (Nat.zero_le _) (by simp) hdone
    | false =>
      rw [if_neg (by simp)]
      rcases goes_or_fails hdone with hgoes | ⟨f, hfault⟩
      · rw [hgoes.step_eq]
        exact .of_goes hgoes (runSteps_cases limit left s.afterStep)
      · rw [step_eq_error hfault]
        exact .failed (k := 0) (Nat.succ_pos left) (by simp) hfault

theorem run_cases (limit : UInt64) (s : Session) :
    RunCases limit s limit.toNat (s.run limit).result (s.run limit).session := by
  have h := runSteps_cases limit limit.toNat s
  rw [run]
  cases hrun : s.runSteps limit limit.toNat with
  | ok a t => rwa [hrun] at h
  | error f t => rwa [hrun] at h

/-! ### Three ways to end -/

/-- After `k` steps, all of which are made, the session is over. -/
def EndsAfter (s : Session) (k : Nat) : Prop :=
  (∀ j < k, (s.after j).Goes) ∧ (s.after k).done = true

/-- After `k` steps, all of which are made, the next one fails. -/
def FailsAfter (s : Session) (k : Nat) (f : Fault) : Prop :=
  (∀ j < k, (s.after j).Goes) ∧ (s.after k).stepResult = .error f

/-- After `k` steps, all of which are made, the session is not over. -/
def GoesOnAfter (s : Session) (k : Nat) : Prop :=
  (∀ j < k, (s.after j).Goes) ∧ (s.after k).done = false

/-- One of the three is the case. -/
theorem ends_or_fails_or_goesOn (s : Session) (n : Nat) :
    (∃ k ≤ n, s.EndsAfter k) ∨ (∃ k < n, ∃ f, s.FailsAfter k f) ∨ s.GoesOnAfter n := by
  have hcases := runSteps_cases 0 n s
  generalize resultOf (s.runSteps 0 n) = result at hcases
  generalize stateOf (s.runSteps 0 n) = t at hcases
  cases hcases with
  | finished hk hgoes hdone => exact Or.inl ⟨_, hk, hgoes, hdone⟩
  | failed hk hgoes hfault => exact Or.inr (Or.inl ⟨_, hk, _, hgoes, hfault⟩)
  | limited hgoes hdone => exact Or.inr (Or.inr ⟨hgoes, hdone⟩)

theorem runSteps_of_done (hdone : s.done = true) (limit : UInt64) {left : Nat} :
    s.runSteps limit left = .ok () s := by
  cases left <;> rw [runSteps, if_pos hdone]

/-- Steps that are made can be taken off a run. -/
theorem runSteps_add (limit : UInt64) (left : Nat) : ∀ {k : Nat} {s : Session},
    (∀ j < k, (s.after j).Goes) → s.runSteps limit (k + left) = (s.after k).runSteps limit left
  | 0, s, _ => by rw [Nat.zero_add]; rfl
  | k + 1, s, h => by
    have hgoes : s.Goes := h 0 (Nat.succ_pos k)
    have ih := runSteps_add limit left (k := k) fun j hj => h (j + 1) (Nat.succ_lt_succ hj)
    rw [Nat.add_right_comm, runSteps, if_neg (by simp [hgoes.not_done]), hgoes.step_eq, after_succ]
    exact ih

variable {limit : UInt64} {k : Nat}

theorem EndsAfter.run (h : s.EndsAfter k) (hk : k ≤ limit.toNat) :
    (s.run limit).result = .ok () ∧ (s.run limit).session = s.after k := by
  obtain ⟨left, hleft⟩ := Nat.exists_eq_add_of_le hk
  rw [Session.run, hleft, runSteps_add limit left h.1, runSteps_of_done h.2]
  exact ⟨rfl, rfl⟩

theorem FailsAfter.run {f : Fault} (h : s.FailsAfter k f) (hk : k < limit.toNat) :
    (s.run limit).result = .error (.fault f) ∧ (s.run limit).session = s.after (k + 1) := by
  obtain ⟨left, hleft⟩ := Nat.exists_eq_add_of_lt hk
  have hdone := not_done_of_error h.2
  rw [Session.run, hleft, Nat.add_assoc, runSteps_add limit (left + 1) h.1, runSteps,
    if_neg (by simp [hdone]), step_eq_error h.2, after_succ_eq_afterStep]
  exact ⟨rfl, rfl⟩

theorem GoesOnAfter.run (h : s.GoesOnAfter limit.toNat) :
    (s.run limit).result = .error (.stepLimit limit (s.after limit.toNat).machine.pc) ∧
      (s.run limit).session = s.after limit.toNat := by
  have hruns := runSteps_add limit 0 h.1
  rw [Nat.add_zero] at hruns
  rw [Session.run, hruns, runSteps, if_neg (by simp [h.2])]
  exact ⟨rfl, rfl⟩

/-- A row of requests to let the program run goes through sessions that steps lead to. -/
theorem exists_after_of_mem_performAll (files : Files) : ∀ {rs : List Request} {s : Session},
    (∀ r ∈ rs, r.drives = true) → ∀ o ∈ s.performAll files rs, ∃ k, o.session = s.after k
  | [], s, _, o, ho => by simp [performAll] at ho
  | r :: rs, s, hrs, o, ho => by
    obtain ⟨k, hk⟩ := (ran_perform files (hrs r (by simp)) s).exists_after
    rw [performAll] at ho
    rcases List.mem_cons.1 ho with rfl | ho
    · exact ⟨k, hk⟩
    · obtain ⟨j, hj⟩ := exists_after_of_mem_performAll files
        (fun r hr => hrs r (List.mem_cons_of_mem _ hr)) o ho
      exact ⟨j + k, by rw [hj, hk, after_add]⟩

end NibbleMachine.Session
