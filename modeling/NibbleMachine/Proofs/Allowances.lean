import Mathlib.Order.Bounds.Basic
import NibbleMachine.Proofs.Runs

/-!
A run and its allowance. A run is nothing but steps, as many as there are up to the end, to the
first that fails or to the end of the allowance, whichever comes first; and only steps that succeed
are counted. So an allowance may be given in two parts: if the first is used up, the run goes on
with the second as if it had had both.
-/

namespace NibbleMachine.Session

variable {s t : Session} {j k : Nat} {f : Fault}

/-! ### Steps that succeed -/

/-- The first `k` steps do not fail; it may be that there is nothing left to do for some of them. -/
def Succeeds (s : Session) (k : Nat) : Prop := ∀ j < k, ∃ more, (s.after j).stepResult = .ok more

theorem Succeeds.of_goes (h : ∀ j < k, (s.after j).Goes) : s.Succeeds k :=
  fun j hj => ⟨true, h j hj⟩

theorem Succeeds.mono (h : s.Succeeds k) (hjk : j ≤ k) : s.Succeeds j :=
  fun i hi => h i (Nat.lt_of_lt_of_le hi hjk)

/-- Steps that succeed before the session is over carry an instruction out. -/
theorem Succeeds.goes (h : s.Succeeds k) (hdone : ∀ j < k, (s.after j).done = false) :
    ∀ j < k, (s.after j).Goes := by
  intro j hj
  rcases goes_or_fails (hdone j hj) with hgoes | ⟨f, hfault⟩
  · exact hgoes
  · obtain ⟨more, hmore⟩ := h j hj
    rw [hmore] at hfault
    contradiction

theorem goesOnAfter_iff : s.GoesOnAfter k ↔ s.Succeeds k ∧ (s.after k).done = false := by
  constructor
  · rintro ⟨hgoes, hdone⟩
    exact ⟨.of_goes hgoes, hdone⟩
  · rintro ⟨hsucceeds, hdone⟩
    exact ⟨hsucceeds.goes fun j hj => not_done_of_le (Nat.le_of_lt hj) hdone, hdone⟩

theorem failsAfter_iff :
    s.FailsAfter k f ↔ s.Succeeds k ∧ (s.after k).stepResult = .error f := by
  constructor
  · rintro ⟨hgoes, hfault⟩
    exact ⟨.of_goes hgoes, hfault⟩
  · rintro ⟨hsucceeds, hfault⟩
    exact ⟨(goesOnAfter_iff.2 ⟨hsucceeds, not_done_of_error hfault⟩).1, hfault⟩

/-- The number of steps after which a session is over is the least one. -/
theorem endsAfter_iff_isLeast :
    s.EndsAfter k ↔ IsLeast {k | s.Succeeds k ∧ (s.after k).done = true} k := by
  constructor
  · rintro ⟨hgoes, hdone⟩
    refine ⟨⟨.of_goes hgoes, hdone⟩, ?_⟩
    rintro j ⟨-, hj⟩
    by_contra hlt
    rw [(hgoes j (Nat.not_le.1 hlt)).not_done] at hj
    contradiction
  · rintro ⟨⟨hsucceeds, hdone⟩, hleast⟩
    refine ⟨hsucceeds.goes fun j hj => ?_, hdone⟩
    by_contra hj'
    have hle := hleast ⟨hsucceeds.mono (Nat.le_of_lt hj), Bool.not_eq_false _ ▸ hj'⟩
    exact absurd hj (Nat.not_lt.2 hle)

theorem exists_endsAfter (hsucceeds : s.Succeeds k) (hdone : (s.after k).done = true) :
    ∃ j ≤ k, s.EndsAfter j := by
  rcases ends_or_fails_or_goesOn s k with hends | ⟨j, hj, f, -, hfault⟩ | ⟨-, hnot⟩
  · exact hends
  · obtain ⟨more, hmore⟩ := hsucceeds j hj
    rw [hmore] at hfault
    contradiction
  · rw [hdone] at hnot
    contradiction

/-! ### Counting steps -/

theorem Goes.steps (h : s.Goes) : s.afterStep.steps = s.steps + 1 := by
  have hcases := step_cases s
  rw [h.step_eq] at hcases
  generalize s.afterStep = t at hcases ⊢
  cases hcases with
  | made _ => rfl

theorem steps_of_goes : ∀ {k : Nat}, (∀ j < k, (s.after j).Goes) →
    (s.after k).steps = s.steps + UInt64.ofNat k
  | 0, _ => by simp [after]
  | k + 1, h => by
    have ih := steps_of_goes (k := k) fun j hj => h j (Nat.lt_succ_of_lt hj)
    rw [after_succ_eq_afterStep, (h k (Nat.lt_succ_self k)).steps, ih, UInt64.ofNat_add,
      UInt64.add_assoc]
    rfl

/-- A step that fails is not counted. -/
theorem steps_of_error (h : s.stepResult = .error f) : s.afterStep.steps = s.steps := by
  rw [afterStep_of_fault h]
  rfl

/-! ### An allowance in two parts -/

namespace GoesOnAfter

/-- Steps behind steps that were all made. -/
theorem goes (h : s.GoesOnAfter j) (hk : ∀ i < k, ((s.after j).after i).Goes) :
    ∀ i < j + k, (s.after i).Goes := by
  intro i hi
  rcases Nat.lt_or_ge i j with hlt | hge
  · exact h.1 i hlt
  · obtain ⟨d, rfl⟩ := Nat.exists_eq_add_of_le hge
    rw [after_add_left]
    exact hk d (Nat.lt_of_add_lt_add_left hi)

theorem endsAfter (h : s.GoesOnAfter j) (hk : (s.after j).EndsAfter k) : s.EndsAfter (j + k) :=
  ⟨h.goes hk.1, after_add_left j k s ▸ hk.2⟩

theorem failsAfter (h : s.GoesOnAfter j) (hk : (s.after j).FailsAfter k f) :
    s.FailsAfter (j + k) f :=
  ⟨h.goes hk.1, after_add_left j k s ▸ hk.2⟩

theorem goesOnAfter (h : s.GoesOnAfter j) (hk : (s.after j).GoesOnAfter k) :
    s.GoesOnAfter (j + k) :=
  ⟨h.goes hk.1, after_add_left j k s ▸ hk.2⟩

end GoesOnAfter

/-- Runs that have ended in the same way, whatever their allowances were. -/
inductive SameEnd : Except Failure Unit → Except Failure Unit → Prop
  | finished : SameEnd (.ok ()) (.ok ())
  | failed (f : Fault) : SameEnd (.error (.fault f)) (.error (.fault f))
  | limited (a b : UInt64) (pc : Nat) :
      SameEnd (.error (.stepLimit a pc)) (.error (.stepLimit b pc))

theorem run_behind {a b : UInt64} (hab : a.toNat + b.toNat < 2 ^ 64)
    (h : s.GoesOnAfter a.toNat) :
    ((s.after a.toNat).run b).session = (s.run (a + b)).session ∧
      SameEnd ((s.after a.toNat).run b).result (s.run (a + b)).result := by
  have hsum : (a + b).toNat = a.toNat + b.toNat := by
    rw [UInt64.toNat_add, Nat.mod_eq_of_lt hab]
  rcases ends_or_fails_or_goesOn (s.after a.toNat) b.toNat with
    ⟨k, hk, hends⟩ | ⟨k, hk, f, hfails⟩ | hgoesOn
  · have hk' : a.toNat + k ≤ (a + b).toNat := by omega
    obtain ⟨hresult, hsession⟩ := hends.run hk
    obtain ⟨hresult', hsession'⟩ := (h.endsAfter hends).run hk'
    rw [hresult, hsession, hresult', hsession', after_add_left]
    exact ⟨rfl, .finished⟩
  · have hk' : a.toNat + k < (a + b).toNat := by omega
    obtain ⟨hresult, hsession⟩ := hfails.run hk
    obtain ⟨hresult', hsession'⟩ := (h.failsAfter hfails).run hk'
    rw [hresult, hsession, hresult', hsession', Nat.add_assoc, after_add_left a.toNat]
    exact ⟨rfl, .failed f⟩
  · have hboth := h.goesOnAfter hgoesOn
    rw [← hsum] at hboth
    obtain ⟨hresult, hsession⟩ := hgoesOn.run
    obtain ⟨hresult', hsession'⟩ := hboth.run
    rw [hresult, hsession, hresult', hsession', hsum, after_add_left]
    exact ⟨rfl, .limited _ _ _⟩

/-! ### Runs -/

/-- What a run tells is how its steps have ended. -/
theorem endsAfter_of_run {limit : UInt64} (h : (s.run limit).result = .ok ()) :
    ∃ k ≤ limit.toNat, s.EndsAfter k := by
  have hcases := run_cases limit s
  rw [h] at hcases
  generalize (s.run limit).session = t at hcases
  cases hcases with
  | finished hk hgoes hdone => exact ⟨_, hk, hgoes, hdone⟩

theorem failsAfter_of_run {limit : UInt64} (h : (s.run limit).result = .error (.fault f)) :
    ∃ k < limit.toNat, s.FailsAfter k f := by
  have hcases := run_cases limit s
  rw [h] at hcases
  generalize (s.run limit).session = t at hcases
  cases hcases with
  | failed hk hgoes hfault => exact ⟨_, hk, hgoes, hfault⟩

theorem goesOnAfter_of_run {limit l : UInt64} {pc : Nat}
    (h : (s.run limit).result = .error (.stepLimit l pc)) : s.GoesOnAfter limit.toNat := by
  have hcases := run_cases limit s
  rw [h] at hcases
  generalize (s.run limit).session = t at hcases
  cases hcases with
  | limited hgoes hdone => exact ⟨hgoes, hdone⟩

/-- A run is a bounded number of steps: it ends at the first step after which the session is over, in
    the first fault, or at its limit, whichever comes first. If an allowance is used up, a run with
    another one from there on ends like a run with both together from the start. -/
theorem run_is_bounded_stepping (s : Session) (limit : UInt64) :
    ((s.run limit).result = .ok () ↔
      ∃ k ≤ limit.toNat, s.Succeeds k ∧ (s.after k).done = true) ∧
    (∀ k ≤ limit.toNat, IsLeast {k | s.Succeeds k ∧ (s.after k).done = true} k →
      (s.run limit).session = s.after k ∧
      (s.run limit).session.steps = s.steps + UInt64.ofNat k) ∧
    ((∃ l pc, (s.run limit).result = .error (.stepLimit l pc)) ↔
      s.Succeeds limit.toNat ∧ (s.after limit.toNat).done = false) ∧
    (∀ l pc, (s.run limit).result = .error (.stepLimit l pc) →
      (s.run limit).session = s.after limit.toNat ∧
      (s.run limit).session.steps = s.steps + limit) ∧
    ((∃ f, (s.run limit).result = .error (.fault f)) ↔
      ∃ k < limit.toNat, s.Succeeds k ∧ ∃ f, (s.after k).stepResult = .error f) ∧
    (∀ k < limit.toNat, ∀ f, s.Succeeds k → (s.after k).stepResult = .error f →
      (s.run limit).result = .error (.fault f) ∧
      (s.run limit).session = (s.after k).afterStep ∧
      (s.run limit).session.steps = s.steps + UInt64.ofNat k) ∧
    ∀ a b : UInt64, a.toNat + b.toNat < 2 ^ 64 →
      (∃ l pc, (s.run a).result = .error (.stepLimit l pc)) →
      ((s.run a).session.run b).session = (s.run (a + b)).session ∧
      SameEnd ((s.run a).session.run b).result (s.run (a + b)).result := by
  refine ⟨⟨?_, ?_⟩, ?_, ⟨?_, ?_⟩, ?_, ⟨?_, ?_⟩, ?_, ?_⟩
  · intro h
    obtain ⟨k, hk, hends⟩ := endsAfter_of_run h
    exact ⟨k, hk, .of_goes hends.1, hends.2⟩
  · rintro ⟨k, hk, hsucceeds, hdone⟩
    obtain ⟨j, hj, hends⟩ := exists_endsAfter hsucceeds hdone
    exact (hends.run (Nat.le_trans hj hk)).1
  · intro k hk hleast
    have hends := endsAfter_iff_isLeast.2 hleast
    rw [(hends.run hk).2]
    exact ⟨rfl, steps_of_goes hends.1⟩
  · rintro ⟨l, pc, h⟩
    exact goesOnAfter_iff.1 (goesOnAfter_of_run h)
  · intro h
    exact ⟨_, _, (goesOnAfter_iff.2 h).run.1⟩
  · intro l pc h
    have hgoesOn := goesOnAfter_of_run h
    rw [hgoesOn.run.2, steps_of_goes hgoesOn.1, UInt64.ofNat_toNat]
    exact ⟨rfl, rfl⟩
  · rintro ⟨f, h⟩
    obtain ⟨k, hk, hfails⟩ := failsAfter_of_run h
    exact ⟨k, hk, .of_goes hfails.1, f, hfails.2⟩
  · rintro ⟨k, hk, hsucceeds, f, hfault⟩
    exact ⟨f, ((failsAfter_iff.2 ⟨hsucceeds, hfault⟩).run hk).1⟩
  · intro k hk f hsucceeds hfault
    have hfails := failsAfter_iff.2 ⟨hsucceeds, hfault⟩
    obtain ⟨hresult, hsession⟩ := hfails.run hk
    rw [hresult, hsession, after_succ_eq_afterStep, steps_of_error hfault, steps_of_goes hfails.1]
    exact ⟨rfl, rfl, rfl⟩
  · rintro a b hab ⟨l, pc, h⟩
    have hgoesOn := goesOnAfter_of_run h
    rw [hgoesOn.run.2]
    exact run_behind hab hgoesOn

/-- A program that ends with the last step of its allowance, given at once or in two parts. -/
theorem run_is_bounded_stepping_exact :
    ∃ p, assemble (Text.utf8 "readm 1\nreadm 2\nhalt") = .ok p ∧
      (∃ l pc, ((start p).run 1).result = .error (.stepLimit l pc)) ∧
      ((start p).run 3).result = .ok () ∧ ((start p).run 3).session.steps = 3 ∧
      (((start p).run 1).session.run 2).session = ((start p).run 3).session ∧
      SameEnd (((start p).run 1).session.run 2).result (.ok ()) := by
  let p : Program := #[⟨.readm, [1], .readm 1, 0x7001, Text.utf8 "7001"⟩,
    ⟨.readm, [2], .readm 2, 0x7002, Text.utf8 "7002"⟩, ⟨.halt, [], .halt, 0xF000, Text.utf8 "F000"⟩]
  have hp : assemble (Text.utf8 "readm 1\nreadm 2\nhalt") = .ok p := by decide +kernel
  have hgoes : ∀ j < 3, ((start p).after j).Goes := by decide +kernel
  have hends : (start p).EndsAfter 3 := ⟨hgoes, by decide +kernel⟩
  obtain ⟨hok, hleft, -, -, -, -, hsplit⟩ := run_is_bounded_stepping (start p) 3
  have hlimit := (run_is_bounded_stepping (start p) 1).2.2.1.2
    ⟨.of_goes fun j hj => hgoes j (Nat.lt_trans hj (by decide)), by decide +kernel⟩
  have hresult := hok.2 ⟨3, by decide, .of_goes hgoes, hends.2⟩
  obtain ⟨-, hsteps⟩ := hleft 3 (by decide) (endsAfter_iff_isLeast.1 hends)
  obtain ⟨hsession, hend⟩ := hsplit 1 2 (by decide) hlimit
  exact ⟨p, hp, hlimit, hresult, hsteps, hsession, hresult ▸ hend⟩

end NibbleMachine.Session
