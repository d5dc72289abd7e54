import NibbleMachine.Proofs.Allowances
import NibbleMachine.Proofs.Loads

/-!
What a fault leaves behind, and how the session goes on from there.

The program counter is moved on before an instruction is carried out; clock, step count and halt
flag are touched only after it. So a step that fails leaves everything but the program counter as it
was, and its instruction has been passed over. Whatever is asked of the session afterwards is
answered as if the steps had stopped in front of that instruction and the program counter had been
put behind it by hand. No time goes by for it, so at any time the machine is what the operations
that were carried out make of it, whatever has failed between them.
-/

namespace NibbleMachine

/-! ### Replaying operations -/

/-- The machine that a row of operations makes of another one, if each of them takes a unit of
    time. -/
def Machine.replay (ops : List Operation) (m : Machine) : Machine :=
  ops.foldl (fun m o => (o.effect m).tick 1) m

theorem Machine.replay_snoc (ops : List Operation) (o : Operation) (m : Machine) :
    m.replay (ops ++ [o]) = (o.effect (m.replay ops)).tick 1 := by
  rw [replay, List.foldl_append, ← replay]
  rfl

/-- No operation looks at the program counter. -/
theorem Operation.effect_setPc (o : Operation) (m : Machine) (pc : Nat) :
    o.effect (m.setPc pc) = (o.effect m).setPc (o.effect (m.setPc pc)).pc := by
  cases o with
  | jz rn target =>
    have hreg : (m.setPc pc).reg rn = m.reg rn := rfl
    simp only [effect, hreg]
    split <;> rfl
  | _ => rfl

namespace Session

variable {s t : Session} {k : Nat} {f : Fault}

/-- However many steps fail, the machine is what the others make of it, but for the program
    counter. -/
theorem machine_after (s : Session) (k : Nat) : (s.after k).machine =
    (s.machine.replay (s.history k)).setPc (s.after k).machine.pc := by
  refine history_induction
    (P := fun ops t => t.machine = (s.machine.replay ops).setPc t.machine.pc) rfl ?_ ?_ k
  · intro ops t i ht _
    have hpc : t.machine.setPc (t.machine.pc + 1) =
        (s.machine.replay ops).setPc (t.machine.pc + 1) := by
      rw [ht]
      rfl
    rw [carry, Machine.replay_snoc]
    simp only [hpc]
    rw [i.operation.effect_setPc]
    rfl
  · intro ops t i ht _
    rw [pass]
    simp only
    rw [ht]
    rfl

/-! ### One fault -/

/-- `Residue s t`: the session `t` is what a step that fails leaves of `s`. -/
structure Residue (s t : Session) : Prop where
  program : t.program = s.program
  registers : t.machine.registers = s.machine.registers
  memory : t.machine.memory = s.machine.memory
  output : t.machine.output = s.machine.output
  time : t.machine.time = s.machine.time
  steps : t.steps = s.steps
  halted : t.halted = s.halted
  pc : t.machine.pc = s.machine.pc + 1

theorem residue_pass (s : Session) : Residue s s.pass :=
  ⟨rfl, rfl, rfl, rfl, rfl, rfl, rfl, rfl⟩

theorem FailsAfter.session_run {limit : UInt64} (h : s.FailsAfter k f) (hk : k < limit.toNat) :
    (s.run limit).session = (s.after k).pass := by
  rw [(h.run hk).2, after_succ_eq_afterStep, afterStep_of_fault h.2]

theorem not_halted_of_fault (h : s.stepResult = .error f) : s.halted = false := by
  have hdone := not_done_of_error h
  rw [done, Bool.or_eq_false_iff] at hdone
  exact hdone.1

/-! ### Going on -/

theorem afterAll_steps (files : Files) : ∀ (k : Nat) (s : Session),
    s.afterAll files (List.replicate k .step) = s.after k
  | 0, _ => rfl
  | k + 1, s => by
    rw [List.replicate_succ, afterAll, session_perform_step, afterAll_steps files k, after_succ]

theorem length_performAll (files : Files) : ∀ (rs : List Request) (s : Session),
    (s.performAll files rs).length = rs.length
  | [], _ => rfl
  | r :: rs, s => by
    rw [performAll, List.length_cons, length_performAll files rs, List.length_cons]

/-- What requests come to behind `k` steps and a move of the program counter past the next
    instruction. -/
theorem performAll_behind (files : Files) (k : Nat) (rs : List Request) (s : Session) :
    (s.performAll files (List.replicate k .step
      ++ .machine (.setPc ((s.after k).machine.pc + 1)) :: rs)).drop (k + 1) =
      (s.after k).pass.performAll files rs := by
  have hlen := length_performAll files (List.replicate k .step) s
  rw [List.length_replicate] at hlen
  rw [performAll_append, afterAll_steps, ← List.drop_drop, List.drop_left' hlen]
  rfl

/-- A fault is passed over. All that it leaves is the program counter, one further on, and whatever
    is asked next is answered as if the instruction had been jumped over. No time is spent on what
    fails: the machine is what the operations that were carried out make of it. -/
theorem faults_are_passed_over (s : Session) :
    (∀ f t, s.step = .error f t → Residue s t) ∧
    (∀ limit f, (s.run limit).result = .error (.fault f) ↔
      ∃ k < limit.toNat, s.FailsAfter k f) ∧
    (∀ (limit : UInt64) (k : Nat) (f : Fault), k < limit.toNat → s.FailsAfter k f →
      Residue (s.after k) (s.run limit).session ∧ (s.run limit).session.halted = false ∧
      ∀ files rs, (s.performAll files (.run limit :: rs)).drop 1 =
        (s.performAll files (List.replicate k .step
          ++ .machine (.setPc ((s.after k).machine.pc + 1)) :: rs)).drop (k + 1)) ∧
    ∀ n, (s.after n).machine =
      (s.machine.replay (s.history n)).setPc (s.after n).machine.pc := by
  refine ⟨fun f t h => ?_, fun limit f => ⟨failsAfter_of_run, ?_⟩, fun limit k f hk h => ?_,
    s.machine_after⟩
  · rw [← afterStep_of_error h, afterStep_of_fault (stepResult_of_error h)]
    exact residue_pass s
  · rintro ⟨k, hk, h⟩
    exact (h.run hk).1
  · have hsession := h.session_run hk
    have hresidue := residue_pass (s.after k)
    rw [← hsession] at hresidue
    refine ⟨hresidue, hresidue.halted.trans (not_halted_of_fault h.2), fun files rs => ?_⟩
    rw [performAll_behind, ← hsession]
    rfl

/-- A register below zero is followed after three steps, and another run goes on behind it. -/
theorem faults_are_passed_over_then_output :
    ∃ p, assemble (Text.utf8 "mov4 R0 1\nmov1 R1 0\nsubt R2 R0 R1\nload R3 R2\nreadm 7") = .ok p ∧
      ((start p).run 10).result = .error (.fault (.indirect (-1))) ∧
      Residue ((start p).after 3) ((start p).run 10).session ∧
      ((start p).run 10).session.halted = false ∧
      ((start p).performAll (fun _ => none) [.run 10, .run 10, .dumpOutput]).drop 1 =
        ((start p).performAll (fun _ => none)
          [.step, .step, .step, .machine (.setPc 4), .run 10, .dumpOutput]).drop 4 := by
  let p : Program := #[⟨.mov4, [0, 1], .mov4 0 1, 0x3001, Text.utf8 "3001"⟩,
    ⟨.mov1, [1, 0], .mov1 1 0, 0x0100, Text.utf8 "0100"⟩,
    ⟨.subt, [2, 0, 1], .subt 2 0 1, 0x5201, Text.utf8 "5201"⟩,
    ⟨.load, [3, 2], .load 3 2, 0xA320, Text.utf8 "A320"⟩,
    ⟨.readm, [7], .readm 7, 0x7007, Text.utf8 "7007"⟩]
  have hp : assemble (Text.utf8 "mov4 R0 1\nmov1 R1 0\nsubt R2 R0 R1\nload R3 R2\nreadm 7") =
      .ok p := by decide +kernel
  have hfails : (start p).FailsAfter 3 (.indirect (-1)) := ⟨by decide +kernel, by decide +kernel⟩
  have hpc : ((start p).after 3).machine.pc = 3 := by decide +kernel
  obtain ⟨-, hiff, hrun, -⟩ := faults_are_passed_over (start p)
  obtain ⟨hresidue, hhalted, hanswers⟩ := hrun 10 3 (.indirect (-1)) (by decide) hfails
  have hlater := hanswers (fun _ => none) [.run 10, .dumpOutput]
  rw [hpc] at hlater
  exact ⟨p, hp, (hiff 10 _).2 ⟨3, by decide, hfails⟩, hresidue, hhalted, hlater⟩

end Session

end NibbleMachine
