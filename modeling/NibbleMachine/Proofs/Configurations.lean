import NibbleMachine.Proofs.Runs

/-!
What a run depends on. No operation looks at the output log, and the clock only says where in the
log a value goes. So the program, the program counter, the registers, the memory and whether a
`halt` was carried out decide what every later step does. If such a configuration comes up a second
time, the steps between the two are made again and again, and the session is never over.
-/

namespace NibbleMachine

/-! ### Actions -/

namespace Machine

variable {α β : Type} {m n : Machine}

/-- Machines that differ in output log and clock only. -/
structure Alike (m n : Machine) : Prop where
  registers : m.registers = n.registers
  memory : m.memory = n.memory
  pc : m.pc = n.pc

/-- Results that tell the same and leave machines that are alike. -/
inductive SameResults : EStateM.Result Fault Machine α → EStateM.Result Fault Machine α → Prop
  | ok {m n : Machine} (x : α) (h : Alike m n) : SameResults (.ok x m) (.ok x n)
  | error {m n : Machine} (f : Fault) (h : Alike m n) : SameResults (.error f m) (.error f n)

/-- An action that takes no notice of output log and clock. -/
def Oblivious (a : Action α) : Prop := ∀ m n : Machine, Alike m n → SameResults (a m) (a n)

theorem Oblivious.bind {a : Action α} {k : α → Action β} (ha : Oblivious a)
    (hk : ∀ x, Oblivious (k x)) : Oblivious (a >>= k) := by
  intro m n h
  have hcases := ha m n h
  generalize hm : a m = r at hcases
  generalize hn : a n = r' at hcases
  cases hcases with
  | ok x h =>
    rw [bind_of_ok hm, bind_of_ok hn]
    exact hk x _ _ h
  | error f h =>
    rw [bind_of_error hm, bind_of_error hn]
    exact .error f h

theorem oblivious_pure (x : α) : Oblivious (pure x) := fun _ _ h => .ok x h

theorem oblivious_modify {f : Machine → Machine} (hf : ∀ m n, Alike m n → Alike (f m) (f n)) :
    Oblivious (modify f) := fun m n h => .ok () (hf m n h)

theorem Alike.reg (h : Alike m n) (i : Nat) : m.reg i = n.reg i := by
  rw [Machine.reg, h.registers, Machine.reg]

theorem Alike.mem (h : Alike m n) (a : Nat) : m.mem a = n.mem a := by
  rw [Machine.mem, h.memory, Machine.mem]

theorem oblivious_register (i : Nat) : Oblivious (register i) := by
  intro m n h
  by_cases hi : i < 16
  · rw [register_of_lt hi, register_of_lt hi, h.reg]
    exact .ok _ h
  · rw [register, dif_neg hi, register, dif_neg hi]
    exact .error _ h

theorem oblivious_setRegister (i : Nat) (v : Value) : Oblivious (setRegister i v) := by
  intro m n h
  by_cases hi : i < 16
  · rw [setRegister_of_lt hi, setRegister_of_lt hi]
    exact .ok () ⟨by rw [putReg, putReg, h.registers], h.memory, h.pc⟩
  · rw [setRegister, dif_neg hi, setRegister, dif_neg hi]
    exact .error _ h

theorem oblivious_cell (a : Nat) : Oblivious (cell a) := by
  intro m n h
  by_cases ha : a < 256
  · rw [cell_of_lt ha, cell_of_lt ha, h.mem]
    exact .ok _ h
  · rw [cell, dif_neg ha, cell, dif_neg ha]
    exact .error _ h

theorem oblivious_setCell (a : Nat) (v : Value) : Oblivious (setCell a v) := by
  intro m n h
  by_cases ha : a < 256
  · rw [setCell_of_lt ha, setCell_of_lt ha]
    exact .ok () ⟨h.registers, by rw [putMem, putMem, h.memory], h.pc⟩
  · rw [setCell, dif_neg ha, setCell, dif_neg ha]
    exact .error _ h

theorem oblivious_address (v : Value) : Oblivious (address v) := by
  intro m n h
  by_cases hv : IsAddress v
  · rw [address_of_isAddress hv, address_of_isAddress hv]
    exact .ok _ h
  · rw [address_of_not hv, address_of_not hv]
    exact .error _ h

end Machine

/-! ### Operations -/

namespace Operation

open Machine

theorem combine_oblivious (f : Value → Value → Value) (rd ra rb : Nat) :
    Oblivious (combine f rd ra rb) :=
  (oblivious_register ra).bind fun _ => (oblivious_register rb).bind fun _ =>
    (oblivious_setRegister rd _).bind fun _ => oblivious_pure _

/-- No operation takes notice of output log and clock, not even the one that writes the log. -/
theorem exec_oblivious (o : Operation) : Oblivious o.exec := by
  cases o with
  | mov1 rn addr =>
    exact (oblivious_cell addr).bind fun _ => (oblivious_setRegister rn _).bind fun _ =>
      oblivious_pure _
  | mov2 rn addr =>
    exact (oblivious_register rn).bind fun _ => (oblivious_setCell addr _).bind fun _ =>
      oblivious_pure _
  | mov3 rn rm =>
    exact (oblivious_register rn).bind fun _ => (oblivious_address _).bind fun _ =>
      (oblivious_register rm).bind fun _ => (oblivious_setCell _ _).bind fun _ => oblivious_pure _
  | mov4 addr imm => exact (oblivious_setCell addr imm).bind fun _ => oblivious_pure _
  | add rd ra rb => exact combine_oblivious _ rd ra rb
  | subt rd ra rb => exact combine_oblivious _ rd ra rb
  | jz rn target =>
    refine (oblivious_register rn).bind fun v => (oblivious_modify ?_).bind fun _ =>
      oblivious_pure _
    intro m n h
    split
    · exact h
    · exact ⟨h.registers, h.memory, rfl⟩
  | halt => exact oblivious_pure _
  | mul rd ra rb => exact combine_oblivious _ rd ra rb
  | load rd rs =>
    exact (oblivious_register rs).bind fun _ => (oblivious_address _).bind fun _ =>
      (oblivious_cell _).bind fun _ => (oblivious_setRegister rd _).bind fun _ => oblivious_pure _
  | readm imm =>
    refine (oblivious_modify ?_).bind fun _ => oblivious_pure _
    exact fun m n h => ⟨h.registers, h.memory, h.pc⟩

end Operation

/-! ### Sessions -/

namespace Session

/-- Sessions that differ in output log, clock and step count only. -/
structure Alike (s t : Session) : Prop where
  program : s.program = t.program
  pc : s.machine.pc = t.machine.pc
  registers : s.machine.registers = t.machine.registers
  memory : s.machine.memory = t.machine.memory
  halted : s.halted = t.halted

namespace Alike

variable {s t : Session}

theorem next? (h : Alike s t) : s.next? = t.next? := by
  rw [Session.next?, Session.next?, h.halted, h.program, h.pc]

theorem done (h : Alike s t) : s.done = t.done := by
  rw [Session.done, Session.done, h.halted, h.program, h.pc]

/-- Sessions that are alike make the same step. -/
theorem step (h : Alike s t) :
    Alike s.afterStep t.afterStep ∧ s.stepResult = t.stepResult := by
  have hnext := h.next?
  rw [afterStep, afterStep, stepResult, stepResult]
  cases hs : s.next? with
  | none =>
    rw [hs] at hnext
    rw [step_of_next?_eq_none hs, step_of_next?_eq_none hnext.symm]
    exact ⟨h, rfl⟩
  | some i =>
    rw [hs] at hnext
    rw [step_of_next?_eq_some hs, step_of_next?_eq_some hnext.symm]
    have hmachine : Machine.Alike (s.machine.setPc (s.machine.pc + 1))
        (t.machine.setPc (t.machine.pc + 1)) :=
      ⟨h.registers, h.memory, congrArg (· + 1) h.pc⟩
    have hcases := i.operation.exec_oblivious _ _ hmachine
    generalize i.operation.exec (s.machine.setPc (s.machine.pc + 1)) = r at hcases ⊢
    generalize i.operation.exec (t.machine.setPc (t.machine.pc + 1)) = r' at hcases ⊢
    cases hcases with
    | ok signal hm =>
      exact ⟨⟨h.program, hm.pc, hm.registers, hm.memory, congrArg (· || _) h.halted⟩, rfl⟩
    | error f hm => exact ⟨⟨h.program, hm.pc, hm.registers, hm.memory, h.halted⟩, rfl⟩

theorem after (h : Alike s t) : ∀ k : Nat, Alike (s.after k) (t.after k)
  | 0 => h
  | k + 1 => by
    rw [after_succ_eq_afterStep, after_succ_eq_afterStep]
    exact (h.after k).step.1

end Alike

/-! ### Repeated configurations -/

/-- What holds during one round, and for each moment of a round at that of the next one, holds for
    ever. -/
theorem forever_of_round {P : Nat → Prop} {i j : Nat} (hij : i < j)
    (hround : ∀ k, i ≤ k → k < j → P k) (hnext : ∀ n, P (i + n) → P (j + n)) (n : Nat) :
    P (i + n) := by
  induction n using Nat.strong_induction_on with
  | _ n ih =>
    by_cases hn : i + n < j
    · exact hround (i + n) (Nat.le_add_right i n) hn
    -- the same moment of the round before
    · have hprevious := hnext (n - (j - i)) (ih (n - (j - i)) (by omega))
      have hsame : j + (n - (j - i)) = i + n := by omega
      rwa [hsame] at hprevious

variable {s : Session} {i j : Nat}

/-- A session that has come to the same program counter, registers and memory again, and is not
    over, is alike to what it was. -/
theorem alike_of_repeated (hij : i < j) (hpc : (s.after i).machine.pc = (s.after j).machine.pc)
    (hregisters : (s.after i).machine.registers = (s.after j).machine.registers)
    (hmemory : (s.after i).machine.memory = (s.after j).machine.memory)
    (hdone : (s.after j).done = false) : Alike (s.after i) (s.after j) := by
  have hrunning : ∀ k ≤ j, (s.after k).halted = false := fun k hk =>
    (Bool.or_eq_false_iff.1 (not_done_of_le hk hdone)).1
  refine ⟨?_, hpc, hregisters, hmemory, ?_⟩
  · rw [after_program, after_program]
  · rw [hrunning i (Nat.le_of_lt hij), hrunning j (Nat.le_refl j)]

theorem Alike.later (h : Alike (s.after i) (s.after j)) (n : Nat) :
    Alike (s.after (i + n)) (s.after (j + n)) := by
  rw [Nat.add_comm i, Nat.add_comm j, after_add, after_add]
  exact h.after n

theorem not_done_of_repeated (hij : i < j) (h : Alike (s.after i) (s.after j))
    (hdone : (s.after j).done = false) (n : Nat) : (s.after (i + n)).done = false := by
  refine forever_of_round (P := fun k => (s.after k).done = false) hij ?_ ?_ n
  · intro k _ hk
    exact not_done_of_le (Nat.le_of_lt hk) hdone
  · intro n hn
    rwa [← (h.later n).done]

theorem goes_of_repeated (hij : i < j) (h : Alike (s.after i) (s.after j))
    (hdone : (s.after j).done = false)
    (hok : ∀ k, i ≤ k → k < j → ∃ more, (s.after k).stepResult = .ok more) (n : Nat) :
    (s.after (i + n)).Goes := by
  refine forever_of_round (P := fun k => (s.after k).Goes) hij ?_ ?_ n
  · intro k hik hk
    obtain ⟨m, rfl⟩ := Nat.exists_eq_add_of_le hik
    rcases goes_or_fails (not_done_of_repeated hij h hdone m) with hgoes | ⟨f, hfault⟩
    · exact hgoes
    · obtain ⟨more, hmore⟩ := hok (i + m) hik hk
      rw [hmore] at hfault
      contradiction
  · intro n hn
    rwa [Goes, ← (h.later n).step.2]

/-- A session that makes all of its steps uses up every allowance. -/
theorem run_of_goes (h : ∀ n, (s.after n).Goes) (limit : UInt64) :
    (s.run limit).result = .error (.stepLimit limit (s.run limit).session.machine.pc) := by
  have hcases := run_cases limit s
  generalize (s.run limit).result = result at hcases ⊢
  generalize (s.run limit).session = t at hcases ⊢
  cases hcases with
  | @finished k _ _ hdone =>
    rw [(h k).not_done] at hdone
    contradiction
  | @failed k f _ _ hfault =>
    rw [h k] at hfault
    contradiction
  | limited _ _ => rfl

/-- The configuration decides what comes, whatever the output log, the clock and the step count. So
    if program counter, registers and memory come up a second time in a session that is not over, it
    is never over, and unless a step between the two has failed, no run from there on ends. -/
theorem configuration_determines_runs :
    (∀ s t : Session, Alike s t → ∀ k, Alike (s.after k) (t.after k) ∧
      (s.after k).stepResult = (t.after k).stepResult) ∧
    ∀ (s : Session) (i j : Nat), i < j →
      (s.after i).machine.pc = (s.after j).machine.pc →
      (s.after i).machine.registers = (s.after j).machine.registers →
      (s.after i).machine.memory = (s.after j).machine.memory →
      (s.after j).done = false →
      (∀ n, (s.after (i + n)).done = false) ∧
      ((∀ k, i ≤ k → k < j → ∃ more, (s.after k).stepResult = .ok more) →
        ∀ n limit, ((s.after (i + n)).run limit).result =
          .error (.stepLimit limit ((s.after (i + n)).run limit).session.machine.pc)) := by
  refine ⟨fun s t h k => ⟨h.after k, (h.after k).step.2⟩, ?_⟩
  intro s i j hij hpc hregisters hmemory hdone
  have halike := alike_of_repeated hij hpc hregisters hmemory hdone
  refine ⟨not_done_of_repeated hij halike hdone, fun hok n limit => ?_⟩
  refine run_of_goes (fun m => ?_) limit
  rw [← after_add, Nat.add_left_comm]
  exact goes_of_repeated hij halike hdone hok (m + n)

/-- A loop that puts a value out on each round, also in a session that has put out others. -/
theorem configuration_determines_runs_loop :
    ∃ p, assemble (Text.utf8 "mov4 R0 1\nmov1 R0 0\nreadm 5\njz R0 2") = .ok p ∧
      (∀ n, ((start p).after (2 + n)).done = false) ∧
      (∀ n limit, (((start p).after (2 + n)).run limit).result = .error (.stepLimit limit
        (((start p).after (2 + n)).run limit).session.machine.pc)) ∧
      ∀ (output : Array Value) (time steps : UInt64) (k : Nat),
        Alike ((start p).after k)
          (Session.after k { start p with machine := { output, time }, steps }) := by
  let p : Program := #[⟨.mov4, [0, 1], .mov4 0 1, 0x3001, Text.utf8 "3001"⟩,
    ⟨.mov1, [0, 0], .mov1 0 0, 0x0000, Text.utf8 "0000"⟩,
    ⟨.readm, [5], .readm 5, 0x7005, Text.utf8 "7005"⟩,
    ⟨.jz, [0, 2], .jz 0 2, 0x6002, Text.utf8 "6002"⟩]
  have hp : assemble (Text.utf8 "mov4 R0 1\nmov1 R0 0\nreadm 5\njz R0 2") = .ok p := by
    decide +kernel
  have hmemory : ((start p).after 2).machine.memory = ((start p).after 4).machine.memory := rfl
  have hfine : ∀ k, 2 ≤ k → k < 4 → ∃ more, ((start p).after k).stepResult = .ok more := by
    intro k hk hk'
    obtain rfl | rfl : k = 2 ∨ k = 3 := by omega
    · exact ⟨true, by decide +kernel⟩
    · exact ⟨true, by decide +kernel⟩
  obtain ⟨hlive, hruns⟩ := configuration_determines_runs.2 (start p) 2 4 (by decide)
    (by decide +kernel) (by decide +kernel) hmemory (by decide +kernel)
  refine ⟨p, hp, hlive, hruns hfine, fun output time steps k => ?_⟩
  have halike : Alike (start p) { start p with machine := { output, time }, steps } :=
    ⟨rfl, rfl, rfl, rfl, rfl⟩
  exact (configuration_determines_runs.1 _ _ halike k).1

end Session

end NibbleMachine
