import Mathlib.Data.List.Perm.Subperm
import NibbleMachine.Proofs.Dialogues
import NibbleMachine.Proofs.Faults
import NibbleMachine.Proofs.Runs

/-!
Programs whose jumps all lead further on. The program counter of such a program grows with every
call of `step`, whether the instruction is carried out or fails. So no instruction comes up twice,
and there are no more steps than instructions.
-/

namespace NibbleMachine

/-- Where an operation may jump to. -/
def Operation.target? : Operation → Option Nat
  | jz _ target => some target
  | _ => none

/-- Every jump of the program leads further on. -/
def Program.Forward (p : Program) : Prop :=
  ∀ (k : Nat) (_ : k < p.size), ∀ target ∈ p[k].operation.target?, k < target

instance (p : Program) : Decidable p.Forward :=
  inferInstanceAs (Decidable (∀ (k : Nat) (_ : k < p.size), ∀ target ∈ p[k].operation.target?,
    k < target))

namespace Session

variable {s : Session}

/-! ### The program counter -/

/-- A step of a session that is not over takes the program counter further on. -/
theorem pc_lt_afterStep (hf : s.program.Forward) (hdone : s.done = false) :
    s.machine.pc < s.afterStep.machine.pc := by
  have hcases := step_cases s
  rw [afterStep]
  generalize s.step = r at hcases ⊢
  cases hcases with
  | idle hnext =>
    rw [(next?_eq_none_iff s).1 hnext] at hdone
    contradiction
  | made hnext =>
    obtain ⟨hlt, hi⟩ := Array.getElem?_eq_some_iff.1 (next?_eq_some_iff.1 hnext).2
    rw [stateOf]
    rcases carry_pc _ s with hpc | ⟨rn, target, ho, hpc⟩
    · rw [hpc]
      exact Nat.lt_succ_self _
    · rw [hpc]
      exact hf _ hlt target (by rw [hi, ho]; rfl)
  | failed _ f => exact Nat.lt_succ_self _

theorem pc_le_afterStep (hf : s.program.Forward) : s.machine.pc ≤ s.afterStep.machine.pc := by
  cases hdone : s.done with
  | true => rw [afterStep_of_done hdone]
  | false => exact Nat.le_of_lt (pc_lt_afterStep hf hdone)

/-- As long as a session is not over, its program counter grows by one at least with each step. -/
theorem pc_add_le (hf : s.program.Forward) : ∀ {k : Nat}, (∀ j < k, (s.after j).done = false) →
    s.machine.pc + k ≤ (s.after k).machine.pc
  | 0, _ => Nat.le_refl _
  | k + 1, h => by
    have ih := pc_add_le hf fun j hj => h j (Nat.lt_succ_of_lt hj)
    have hf' : (s.after k).program.Forward := by rwa [after_program]
    have hlt := pc_lt_afterStep hf' (h k (Nat.lt_succ_self k))
    rw [after_succ_eq_afterStep]
    omega

/-! ### Places -/

/-- The places in the program of the instructions that the first `k` calls of `step` carry out, in
    order. -/
def places (s : Session) : (k : Nat) → List Nat
  | 0 => []
  | k + 1 => s.places k ++ ((s.after k).carriedOut.map fun _ => (s.after k).machine.pc).toList

theorem exists_of_carriedOut {o : Operation} (h : s.carriedOut = some o) :
    s.done = false ∧ ∃ i, s.program[s.machine.pc]? = some i ∧ i.operation = o := by
  have hcases := step_cases s
  rw [carriedOut] at h
  generalize s.step = r at hcases h
  cases hcases with
  | idle _ => contradiction
  | made hnext =>
    rw [hnext] at h
    refine ⟨?_, _, (next?_eq_some_iff.1 hnext).2, Option.some.inj h⟩
    rw [← Bool.not_eq_true, ← next?_eq_none_iff, hnext]
    simp
  | failed _ _ => contradiction

/-- The history is what stands at these places. -/
theorem map_some_history (s : Session) : ∀ k : Nat,
    (s.history k).map some = (s.places k).map fun a => s.program[a]?.map (·.operation)
  | 0 => rfl
  | k + 1 => by
    rw [history, places, List.map_append, List.map_append, map_some_history s k]
    cases hout : (s.after k).carriedOut with
    | none => rfl
    | some o =>
      obtain ⟨-, i, hi, rfl⟩ := exists_of_carriedOut hout
      rw [after_program] at hi
      simp [hi]

theorem length_history (s : Session) (k : Nat) : (s.history k).length = (s.places k).length := by
  simpa using congrArg List.length (s.map_some_history k)

/-- `Climbs places s`: the places follow each other in the program and are behind the session. -/
structure Climbs (places : List Nat) (s : Session) : Prop where
  increasing : places.Pairwise (· < ·)
  behind : ∀ a ∈ places, a < s.machine.pc
  within : ∀ a ∈ places, a < s.program.size

theorem length_le_of_increasing {l : List Nat} {n : Nat} (h : l.Pairwise (· < ·))
    (hn : ∀ a ∈ l, a < n) : l.length ≤ n := by
  have hnodup : l.Nodup := h.imp Nat.ne_of_lt
  have hsubset : l ⊆ List.range n := fun a ha => List.mem_range.2 (hn a ha)
  simpa using (List.subperm_of_subset hnodup hsubset).length_le

theorem climbs_places (hf : s.program.Forward) : ∀ k : Nat, Climbs (s.places k) (s.after k)
  | 0 => ⟨.nil, by simp [places], by simp [places]⟩
  | k + 1 => by
    have ih := climbs_places hf k
    have hf' : (s.after k).program.Forward := by rwa [after_program]
    rw [places, after_succ_eq_afterStep]
    cases hout : (s.after k).carriedOut with
    | none =>
      have hle := pc_le_afterStep hf'
      rw [Option.map_none, Option.toList_none, List.append_nil]
      refine ⟨ih.increasing, fun a ha => Nat.lt_of_lt_of_le (ih.behind a ha) hle, ?_⟩
      rw [afterStep_program]
      exact ih.within
    | some o =>
      obtain ⟨hdone, i, hi, -⟩ := exists_of_carriedOut hout
      have hlt := pc_lt_afterStep hf' hdone
      have hsize : (s.after k).machine.pc < (s.after k).program.size :=
        (Array.getElem?_eq_some_iff.1 hi).1
      rw [Option.map_some, Option.toList_some]
      -- the new place is where the session was, and the session has left it behind
      refine ⟨?_, ?_, ?_⟩
      · rw [List.pairwise_append]
        refine ⟨ih.increasing, List.pairwise_singleton _ _, fun a ha b hb => ?_⟩
        rw [List.mem_singleton.1 hb]
        exact ih.behind a ha
      · intro a ha
        rcases List.mem_append.1 ha with ha | ha
        · exact Nat.lt_trans (ih.behind a ha) hlt
        · rwa [List.mem_singleton.1 ha]
      · intro a ha
        rw [afterStep_program]
        rcases List.mem_append.1 ha with ha | ha
        · exact ih.within a ha
        · rwa [List.mem_singleton.1 ha]

/-! ### Limits -/

/-- A run with an allowance for every instruction does not use it up. -/
theorem run_of_forward {p : Program} (hs : s.program = p) (hp : p.Assembled) (hf : p.Forward)
    {limit : UInt64} (hlimit : p.size ≤ limit.toNat) :
    (s.run limit).result = .ok () ∧ ((s.run limit).session.halted = true ∨
        p.size ≤ (s.run limit).session.machine.pc) ∨
      ∃ v, ¬ IsAddress v ∧ (s.run limit).result = .error (.fault (.indirect v)) := by
  subst hs
  have hcases := run_cases limit s
  generalize (s.run limit).result = result at hcases ⊢
  generalize (s.run limit).session = t at hcases ⊢
  cases hcases with
  | finished _ _ hdone =>
    rw [done, after_program, Bool.or_eq_true, decide_eq_true_iff] at hdone
    exact Or.inl ⟨rfl, hdone⟩
  | @failed k f _ _ hfault =>
    have hpk : (s.after k).program.Assembled := by rwa [after_program]
    obtain ⟨-, v, -, -, hv, rfl⟩ := (stepResult_eq_error_iff hpk).1 hfault
    exact Or.inr ⟨v, hv, rfl⟩
  | limited hgoes hdone =>
    -- every step of the allowance was made, so the program counter is behind the program
    have hle := pc_add_le hf fun j hj => (hgoes j hj).not_done
    have hlt : (s.after limit.toNat).machine.pc < s.program.size := by
      simpa [after_program] using (exists_fetch hdone).1
    omega

theorem steps_after (s : Session) (k : Nat) :
    (s.after k).steps = s.steps + UInt64.ofNat (s.history k).length := by
  refine history_induction (P := fun ops t => t.steps = s.steps + UInt64.ofNat ops.length)
    (by simp) ?_ ?_ k
  · intro ops t i ht _
    show t.steps + 1 = _
    rw [ht, List.length_append, UInt64.ofNat_add, UInt64.add_assoc]
    rfl
  · intro ops t i ht _
    exact ht

/-- The session stays below the limit of steps as long as it is not over. -/
def BelowLimit (s : Session) : Prop :=
  ∀ k, (s.after k).done = false → (s.after k).steps < stepLimit

theorem BelowLimit.after (h : s.BelowLimit) (j : Nat) : (s.after j).BelowLimit := by
  intro k
  rw [← after_add]
  exact h (k + j)

/-- A program that is not over has made fewer steps than it has instructions. -/
theorem belowLimit_of_forward {p : Program} (hf : p.Forward) (hsize : p.size ≤ 100000) :
    (start p).BelowLimit := by
  intro k hdone
  have hclimbs := climbs_places (s := start p) hf k
  have hle := length_le_of_increasing hclimbs.increasing hclimbs.behind
  have hlt : ((start p).after k).machine.pc < p.size := by
    simpa [after_program, start] using (exists_fetch hdone).1
  rw [steps_after, length_history, UInt64.lt_iff_toNat_lt]
  show (0 + UInt64.ofNat ((start p).places k).length).toNat < 100000
  rw [UInt64.zero_add, UInt64.toNat_ofNat_of_lt' (by rw [UInt64.size]; omega)]
  omega

/-! ### Dialogues below the limit -/

theorem Held.limitReached_notMem {events : List Event} {progress : Progress}
    (h : Held s events progress) (hbelow : s.BelowLimit) : .limitReached ∉ events := by
  induction h with
  | going s => simp
  | ended s => simp
  | broken _ _ => simp
  | @aside s e events progress he _ ih =>
    rw [List.mem_cons, not_or]
    refine ⟨?_, ih hbelow⟩
    rintro rfl
    have hlt : s.steps < stepLimit := hbelow 0 he.1
    exact absurd hlt (UInt64.not_lt.2 he.2)
  | @step s t i events progress _ hstep _ ih =>
    have hafter : s.after 1 = t := afterStep_of_ok hstep
    simpa using ih (hafter ▸ hbelow.after 1)

/-- A session that stays below the limit of steps has dialogues that do not come to it. -/
theorem limitReached_notMem_converse (h : s.BelowLimit) (input : Text) :
    .limitReached ∉ (s.converse input).log := by
  rw [← Array.mem_toList_iff]
  exact (held_converse input s).limitReached_notMem h

/-- A program that only jumps forward comes to an end. The instructions that are carried out have
    places that follow each other in the program, so there are no more steps than instructions. A
    run that is allowed as many ends by a `halt`, behind the program or in a fault of an indirect
    address, and up to 100000 instructions neither a run nor a dialogue comes to the usual limit. -/
theorem forward_runs_end {source : Text} {p : Program} (h : assemble source = .ok p)
    (hf : p.Forward) :
    (∀ (files : Files) (rs : List Request), (∀ r ∈ rs, r.drives = true) →
      ∀ o ∈ (start p).performAll files rs, ∃ k, o.session = (start p).after k) ∧
    (∀ k, ((start p).history k).map some =
        ((start p).places k).map (fun a => p[a]?.map (·.operation)) ∧
      ((start p).places k).Pairwise (· < ·) ∧
      ((start p).history k).length ≤ p.size ∧
      ((start p).after k).steps = UInt64.ofNat ((start p).history k).length) ∧
    (∀ k (limit : UInt64), p.size ≤ limit.toNat →
      (((start p).after k).run limit).result = .ok () ∧
          ((((start p).after k).run limit).session.halted = true ∨
            p.size ≤ (((start p).after k).run limit).session.machine.pc) ∨
        ∃ v, ¬ (0 ≤ v.toInt ∧ v.toInt ≤ 255) ∧
          (((start p).after k).run limit).result = .error (.fault (.indirect v))) ∧
    (p.size ≤ 100000 → ∀ k,
      (∀ limit pc, (((start p).after k).run stepLimit).result ≠ .error (.stepLimit limit pc)) ∧
      ∀ input, .limitReached ∉ (((start p).after k).converse input).log) := by
  have hfrom : ∀ k, ((start p).after k).program = p := fun k => after_program k (start p)
  have hp := assembled_of_assemble h
  refine ⟨fun files rs hrs => exists_after_of_mem_performAll files hrs, ?_, ?_, ?_⟩
  · intro k
    have hclimbs := climbs_places (s := start p) hf k
    have hle := length_le_of_increasing hclimbs.increasing hclimbs.within
    rw [hfrom, ← length_history] at hle
    refine ⟨map_some_history (start p) k, hclimbs.increasing, hle, ?_⟩
    rw [steps_after]
    exact UInt64.zero_add _
  · intro k limit hlimit
    exact run_of_forward (hfrom k) hp hf hlimit
  · intro hsize k
    refine ⟨fun limit pc hresult => ?_, ?_⟩
    · have hlimit : p.size ≤ stepLimit.toNat := hsize
      have hrun := run_of_forward (hfrom k) hp hf hlimit
      rw [hresult] at hrun
      simp at hrun
    · exact limitReached_notMem_converse ((belowLimit_of_forward hf hsize).after k)

/-- A jump over an instruction. -/
theorem forward_runs_end_skipping :
    ∃ p, assemble (Text.utf8 "mov4 R0 3\nmov1 R0 0\njz R0 4\nreadm 1\nhalt") = .ok p ∧
      p.Forward ∧ p.size = 5 ∧ (start p).places 9 = [0, 1, 2, 4] ∧
      ((start p).places 9).Pairwise (· < ·) ∧ ((start p).history 9).length ≤ 5 ∧
      (∀ pc, ((start p).run 5).result ≠ .error (.stepLimit 5 pc)) ∧
      ∀ input, .limitReached ∉ ((start p).converse input).log := by
  let p : Program := #[⟨.mov4, [0, 3], .mov4 0 3, 0x3003, Text.utf8 "3003"⟩,
    ⟨.mov1, [0, 0], .mov1 0 0, 0x0000, Text.utf8 "0000"⟩,
    ⟨.jz, [0, 4], .jz 0 4, 0x6004, Text.utf8 "6004"⟩,
    ⟨.readm, [1], .readm 1, 0x7001, Text.utf8 "7001"⟩,
    ⟨.halt, [], .halt, 0xF000, Text.utf8 "F000"⟩]
  have hp : assemble (Text.utf8 "mov4 R0 3\nmov1 R0 0\njz R0 4\nreadm 1\nhalt") = .ok p := by
    decide +kernel
  have hf : p.Forward := by decide +kernel
  have hplaces : (start p).places 9 = [0, 1, 2, 4] := by decide +kernel
  obtain ⟨-, hsteps, hruns, hlimit⟩ := forward_runs_end hp hf
  obtain ⟨-, hincreasing, hlength, -⟩ := hsteps 9
  refine ⟨p, hp, hf, rfl, hplaces, hincreasing, hlength, ?_, (hlimit (by decide) 0).2⟩
  intro pc hresult
  have hrun := hruns 0 5 (by decide)
  rw [show (start p).after 0 = start p from rfl, hresult] at hrun
  simp at hrun

end Session

end NibbleMachine
