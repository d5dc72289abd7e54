import NibbleMachine.Proofs.Execution
import NibbleMachine.Proofs.Programs
import NibbleMachine.Proofs.Stepping

/-!
What can go wrong while an assembled program runs. The operands of an assembled instruction fit
their fields, so the registers and cells it names are there, and the only thing left that can fail
is an address that it takes from a register. This is true of the instruction alone, so it is true
in every session that has the program, whatever its registers hold and whatever has failed before.
-/

namespace NibbleMachine

/-! ### Assembled instructions -/

/-- Operands that fit their word name only registers and cells that are there. -/
theorem Operation.inBounds_of_fits {op : Opcode} {args : List Operand} {o : Operation}
    (ho : ofArgs op args = .ok o) (h : Word.Fits op args) : o.InBounds := by
  obtain ⟨-, rfl⟩ := ofArgs_eq_ok_iff.1 ho
  have hreg : ∀ k < op.shape.registers.toNat, (args.getD k 0).toNat < 16 := fun k => h.register_lt
  cases op with
  | mov1 | mov2 => exact ⟨hreg 0 (by decide), h.immediate_lt rfl⟩
  | mov3 | load => exact ⟨hreg 0 (by decide), hreg 1 (by decide)⟩
  | mov4 => exact Nat.lt_trans (hreg 0 (by decide)) (by decide)
  | add | subt | mul => exact ⟨hreg 0 (by decide), hreg 1 (by decide), hreg 2 (by decide)⟩
  | jz => exact hreg 0 (by decide)
  | halt | readm => trivial

/-- `i.Follows m v`: on the machine `m`, the instruction takes an address from a register that
    holds `v`. This is `Rn` in `mov3 Rn Rm` and `Rs` in `load Rd Rs`. -/
def Instruction.Follows (i : Instruction) (m : Machine) (v : Value) : Prop :=
  (∃ rn rm, i.op = .mov3 ∧ i.args = [rn, rm] ∧ m.registers[rn.toNat]? = some v) ∨
    ∃ rd rs, i.op = .load ∧ i.args = [rd, rs] ∧ m.registers[rs.toNat]? = some v

namespace Instruction.Assembled

variable {i : Instruction}

theorem inBounds (h : i.Assembled) : i.operation.InBounds :=
  Operation.inBounds_of_fits h.operation h.fits

/-- What an instruction follows is what its operation has in its pointer. -/
theorem follows_iff (h : i.Assembled) {m : Machine} {v : Value} :
    i.Follows m v ↔ ∃ r, i.operation.pointer? = some r ∧ m.registers[r]? = some v := by
  obtain ⟨hlen, ho⟩ := Operation.ofArgs_eq_ok_iff.1 h.operation
  rw [← ho]
  constructor
  · rintro (⟨rn, rm, hop, hargs, hv⟩ | ⟨rd, rs, hop, hargs, hv⟩)
    · rw [hop, hargs]
      exact ⟨_, rfl, hv⟩
    · rw [hop, hargs]
      exact ⟨_, rfl, hv⟩
  · rintro ⟨r, hr, hv⟩
    cases hop : i.op with
    | mov3 =>
      rw [hop] at hlen hr
      obtain ⟨rn, rm, hargs⟩ := List.length_eq_two.1 hlen
      rw [hargs] at hr
      rw [← Option.some.inj hr] at hv
      exact Or.inl ⟨rn, rm, hop, hargs, hv⟩
    | load =>
      rw [hop] at hlen hr
      obtain ⟨rd, rs, hargs⟩ := List.length_eq_two.1 hlen
      rw [hargs] at hr
      rw [← Option.some.inj hr] at hv
      exact Or.inr ⟨rd, rs, hop, hargs, hv⟩
    | _ =>
      rw [hop] at hr
      contradiction

/-- An assembled instruction fails exactly if what it follows is no address. -/
theorem exec_eq_error_iff (h : i.Assembled) {m m' : Machine} {f : Fault} :
    i.operation.exec m = .error f m' ↔
      ∃ v, i.Follows m v ∧ ¬ IsAddress v ∧ f = .indirect v ∧ m' = m := by
  rw [Operation.exec_eq_error_iff h.inBounds]
  constructor
  · rintro ⟨r, hr, hv, rfl, rfl⟩
    have hreg := Machine.getElem?_registers (m := m') (h.inBounds.pointer_lt hr)
    exact ⟨_, h.follows_iff.2 ⟨r, hr, hreg⟩, hv, rfl, rfl⟩
  · rintro ⟨v, hfollows, hv, rfl, rfl⟩
    obtain ⟨r, hr, hreg⟩ := h.follows_iff.1 hfollows
    rw [Machine.getElem?_registers (h.inBounds.pointer_lt hr)] at hreg
    obtain rfl := Option.some.inj hreg
    exact ⟨r, hr, hv, rfl, rfl⟩

end Instruction.Assembled

/-! ### Sessions -/

namespace Session

/-- A session that is not over has its next instruction within the program. -/
theorem exists_fetch {s : Session} (h : s.done = false) :
    ∃ hpc : s.machine.pc < s.program.size, s.next? = some (s.program[s.machine.pc]) := by
  obtain ⟨hhalted, hpc⟩ : s.halted = false ∧ s.machine.pc < s.program.size := by
    simpa [done] using h
  exact ⟨hpc, by simp [next?, hhalted, hpc]⟩

/-- A step of an assembled program fails exactly if its instruction follows a value that is no
    address. -/
theorem stepResult_eq_error_iff {s : Session} (hp : s.program.Assembled) {f : Fault} :
    s.stepResult = .error f ↔
      ∃ i v, s.next? = some i ∧ i.Follows s.machine v ∧ ¬ IsAddress v ∧ f = .indirect v := by
  cases hnext : s.next? with
  | none =>
    rw [stepResult, step_of_next?_eq_none hnext]
    simp [resultOf]
  | some i =>
    have hi : i.Assembled := hp i (mem_program_of_next? hnext)
    rw [stepResult_eq_error_iff_exec hnext]
    simp only [hi.exec_eq_error_iff]
    -- moving the program counter on leaves the registers alone
    constructor
    · rintro ⟨m, v, hfollows, hv, rfl, -⟩
      exact ⟨i, v, rfl, hfollows, hv, rfl⟩
    · rintro ⟨j, v, hj, hfollows, hv, rfl⟩
      obtain rfl := Option.some.inj hj
      exact ⟨_, v, hfollows, hv, rfl, rfl⟩

/-- The sessions that a source leads to have a program as the assembler makes it. -/
theorem Driven.assembled {files : Files} {source : Text} {t : Session}
    (h : Driven files source t) : t.program.Assembled := by
  obtain ⟨p, k, hp, rfl⟩ := h.exists_after
  rw [after_program]
  exact assembled_of_assemble hp

/-- Indirect addresses are the only faults in the sessions that a source leads to. While such a
    session is not over, its next instruction is within the program; its next step fails exactly if
    this instruction follows a value outside 0 to 255, and the fault names the value; and no run or
    dialogue from there ends in another fault. -/
theorem Driven.faults {files : Files} {source : Text} {t : Session} (h : Driven files source t) :
    (t.done = false →
      ∃ hpc : t.machine.pc < t.program.size, t.next? = some (t.program[t.machine.pc])) ∧
    (∀ f, t.stepResult = .error f ↔
      ∃ i v, t.next? = some i ∧ i.Follows t.machine v ∧ ¬ (0 ≤ v.toInt ∧ v.toInt ≤ 255) ∧
        f = .indirect v) ∧
    ∀ r f, r.drives = true → (t.perform files r).result = .error (.fault f) →
      ∃ v, ¬ (0 ≤ v.toInt ∧ v.toInt ≤ 255) ∧ f = .indirect v := by
  have hp := h.assembled
  refine ⟨exists_fetch, fun f => stepResult_eq_error_iff hp, fun r f hr hf => ?_⟩
  have hran := ran_perform files hr t
  rw [hf] at hran
  obtain ⟨k, hk⟩ := hran.exists_fault
  have hpk : (t.after k).program.Assembled := by rwa [after_program]
  obtain ⟨i, v, -, -, hv, hf⟩ := (stepResult_eq_error_iff hpk).1 hk
  exact ⟨v, hv, hf⟩

/-- A register goes below zero and is followed, and then again after the fault. -/
theorem Driven.faults_below_zero :
    ∃ t, Driven (fun _ => none)
        (Text.utf8 "mov4 R0 1\nmov1 R1 0\nsubt R2 R0 R1\nload R3 R2\nload R3 R2") t ∧
      t.stepResult = .error (.indirect (-1)) ∧
      ∃ i v, t.next? = some i ∧ i.Follows t.machine v ∧ ¬ (0 ≤ v.toInt ∧ v.toInt ≤ 255) ∧
        Fault.indirect (-1) = .indirect v := by
  let p : Program := #[⟨.mov4, [0, 1], .mov4 0 1, 0x3001, Text.utf8 "3001"⟩,
    ⟨.mov1, [1, 0], .mov1 1 0, 0x0100, Text.utf8 "0100"⟩,
    ⟨.subt, [2, 0, 1], .subt 2 0 1, 0x5201, Text.utf8 "5201"⟩,
    ⟨.load, [3, 2], .load 3 2, 0xA320, Text.utf8 "A320"⟩,
    ⟨.load, [3, 2], .load 3 2, 0xA320, Text.utf8 "A320"⟩]
  have hp : assemble (Text.utf8 "mov4 R0 1\nmov1 R1 0\nsubt R2 R0 R1\nload R3 R2\nload R3 R2") =
      .ok p := by decide +kernel
  have hload : Driven (fun _ => none) _ (start p) :=
    .load (s := start #[]) (loadSource_eq_ok_iff.2 ⟨p, hp, rfl⟩)
  -- the run ends in the first of the two faults
  have hrun := hload.request (r := .run 10) rfl
  have hfault : ((start p).perform (fun _ => none) (.run 10)).session.stepResult =
      .error (.indirect (-1)) := rfl
  exact ⟨_, hrun, hfault, ((Driven.faults hrun).2.1 _).1 hfault⟩

end Session

end NibbleMachine
