import NibbleMachine.Proofs.Dialogues
import NibbleMachine.Proofs.Faults
import NibbleMachine.Proofs.Runs

/-!
Programs without arithmetic. A number comes into the machine by `mov4` only, where it has eight
bits, and the other moves carry it about between registers and cells. So all of them hold numbers
from 0 to 255 at any time. These are just the addresses of cells, and no register that is followed
can be at fault.
-/

namespace NibbleMachine

/-- What an assembled `mov4` stores fits eight bits. -/
theorem Instruction.Assembled.mov4_range {i : Instruction} (h : i.Assembled) {addr : Nat}
    {imm : Value} (ho : i.operation = .mov4 addr imm) : IsAddress imm := by
  have hname : i.op = .mov4 := by rw [h.op_eq, ho, Operation.opcode]
  obtain ⟨-, hop⟩ := Operation.ofArgs_eq_ok_iff.1 h.operation
  have hfits := h.fits
  rw [hname] at hop hfits
  obtain rfl : Operation.value (i.args.getD 1 0) = imm := (Operation.mov4.inj (hop.trans ho)).2
  have hlt : (i.args.getD 1 0).toNat < 2 ^ 8 := hfits.immediate_lt rfl
  rw [IsAddress, Operation.toInt_value]
  omega

/-! ### Machines that hold addresses -/

/-- Every register and every cell holds the address of a cell. -/
structure Machine.HoldsAddresses (m : Machine) : Prop where
  register : ∀ r : Nat, IsAddress (m.reg r)
  cell : ∀ a : Nat, IsAddress (m.mem a)

namespace Machine.HoldsAddresses

variable {m : Machine}

theorem fresh : ({} : Machine).HoldsAddresses := by
  have hzero : IsAddress 0 := ⟨by decide, by decide⟩
  constructor
  · intro r
    rwa [reg_fresh]
  · intro a
    rwa [mem_fresh]

theorem putReg (h : m.HoldsAddresses) (i : Nat) {v : Value} (hv : IsAddress v) :
    (m.putReg i v).HoldsAddresses := by
  refine ⟨fun r => ?_, h.cell⟩
  rw [reg_putReg]
  split
  · exact hv
  · exact h.register r

theorem putMem (h : m.HoldsAddresses) (b : Nat) {v : Value} (hv : IsAddress v) :
    (m.putMem b v).HoldsAddresses := by
  refine ⟨h.register, fun a => ?_⟩
  rw [mem_putMem]
  split
  · exact hv
  · exact h.cell a

/-- An operation that does not compute carries addresses about, or stores one that it brings. -/
theorem effect (h : m.HoldsAddresses) {o : Operation} (hop : o.opcode ∉ [.add, .subt, .mul])
    (himm : ∀ addr imm, o = .mov4 addr imm → IsAddress imm) : (o.effect m).HoldsAddresses := by
  cases o with
  | mov1 rn addr => exact h.putReg rn (h.cell addr)
  | mov2 rn addr => exact h.putMem addr (h.register rn)
  | mov3 rn rm => exact h.putMem _ (h.register rm)
  | mov4 addr imm => exact h.putMem addr (himm addr imm rfl)
  | add | subt | mul => simp [Operation.opcode] at hop
  | jz rn target =>
    rw [Operation.effect]
    split
    · exact h
    · exact ⟨h.register, h.cell⟩
  | halt => exact h
  | load rd rs => exact h.putReg rd (h.cell _)
  | readm imm => exact ⟨h.register, h.cell⟩

end Machine.HoldsAddresses

/-! ### Sessions -/

namespace Session

variable {s : Session} {p : Program}

theorem holdsAddresses_after (hp : p.Assembled)
    (hmoves : ∀ i ∈ p.toList, i.op ∉ [.add, .subt, .mul]) (k : Nat) :
    ((start p).after k).machine.HoldsAddresses := by
  refine machine_induction .fresh (fun _ h => ⟨h.register, h.cell⟩)
    (fun h => ⟨h.register, h.cell⟩) ?_ k
  intro m i h hi
  have hop := hmoves i hi
  rw [(hp i hi).op_eq] at hop
  exact h.effect hop fun addr imm => (hp i hi).mov4_range

/-- Where all values are addresses, none that is followed is at fault. -/
theorem stepResult_of_holdsAddresses (hp : s.program.Assembled) (h : s.machine.HoldsAddresses) :
    s.stepResult = .ok (!s.done) := by
  cases hdone : s.done with
  | true => exact stepResult_of_done hdone
  | false =>
    rcases goes_or_fails hdone with hgoes | ⟨f, hfault⟩
    · exact hgoes
    · obtain ⟨i, v, hnext, hfollows, hv, -⟩ := (stepResult_eq_error_iff hp).1 hfault
      have hi : i.Assembled := hp i (mem_program_of_next? hnext)
      obtain ⟨r, -, hr⟩ := hi.follows_iff.1 hfollows
      have haddress := h.register r
      rw [Machine.reg, hr, Option.getD_some] at haddress
      exact absurd haddress hv

/-- Without faults, the only failure of a run is that its allowance is used up. -/
theorem run_of_no_fault (h : ∀ k f, (s.after k).stepResult ≠ .error f) (limit : UInt64) :
    (s.run limit).result = .ok () ∨
      (s.run limit).result = .error (.stepLimit limit (s.run limit).session.machine.pc) := by
  have hcases := run_cases limit s
  generalize (s.run limit).result = result at hcases ⊢
  generalize (s.run limit).session = t at hcases ⊢
  cases hcases with
  | finished _ _ _ => exact Or.inl rfl
  | @failed k f _ _ hfault => exact absurd hfault (h k f)
  | limited _ _ => exact Or.inr rfl

/-- Without faults, a dialogue has no failure. -/
theorem stepThrough_of_no_fault (h : ∀ k f, (s.after k).stepResult ≠ .error f) (input : Text) :
    (s.stepThrough input).result = .ok () := by
  obtain ⟨k, hk, -⟩ := converse_reaches input s
  rw [(stepThrough_of_rests hk).2.2]
  cases k with
  | zero => rfl
  | succ k =>
    rw [faultAt]
    cases hstep : (s.after k).stepResult with
    | ok more => rfl
    | error f => exact absurd hstep (h k f)

/-- Without arithmetic nothing can fail. In every session that a source without `add`, `subt` and
    `mul` leads to, every register and every cell holds a number from 0 to 255. So a step is never
    at fault and is made exactly if the session is not over; a run ends well or is stopped by its
    limit; and a dialogue always ends well. -/
theorem Driven.no_fault_without_arithmetic {files : Files} {source : Text} {p : Program}
    {t : Session} (hp : assemble source = .ok p)
    (hmoves : ∀ i ∈ p.toList, i.op ∉ [.add, .subt, .mul]) (h : Driven files source t) :
    (∀ v ∈ t.machine.registers, 0 ≤ v.toInt ∧ v.toInt ≤ 255) ∧
    (∀ v ∈ t.machine.memory, 0 ≤ v.toInt ∧ v.toInt ≤ 255) ∧
    t.stepResult = .ok (!t.done) ∧
    (∀ limit, (t.run limit).result = .ok () ∨
      (t.run limit).result = .error (.stepLimit limit (t.run limit).session.machine.pc)) ∧
    ∀ input, (t.stepThrough input).result = .ok () := by
  obtain ⟨q, k, hq, rfl⟩ := h.exists_after
  obtain rfl : p = q := Except.ok.inj (hp.symm.trans hq)
  have hassembled := assembled_of_assemble hp
  have haddresses := holdsAddresses_after hassembled hmoves
  have hstep : ∀ j, ((start p).after j).stepResult = .ok (!((start p).after j).done) := fun j =>
    stepResult_of_holdsAddresses (by rwa [after_program]) (haddresses j)
  have hfine : ∀ j f, (((start p).after k).after j).stepResult ≠ .error f := by
    intro j f
    rw [← after_add, hstep]
    simp
  refine ⟨?_, ?_, hstep k, run_of_no_fault hfine, stepThrough_of_no_fault hfine⟩
  · intro v hv
    obtain ⟨r, hr, rfl⟩ := Vector.mem_iff_getElem.1 hv
    rw [← Machine.reg_of_lt hr]
    exact (haddresses k).register r
  · intro v hv
    obtain ⟨a, ha, rfl⟩ := Vector.mem_iff_getElem.1 hv
    rw [← Machine.mem_of_lt ha]
    exact (haddresses k).cell a

/-- A loop that writes and reads through a register; a run of it was stopped before the `load`. -/
theorem Driven.no_fault_without_arithmetic_loop :
    ∃ source p t, assemble source = .ok p ∧ (∀ i ∈ p.toList, i.op ∉ [.add, .subt, .mul]) ∧
      Driven (fun _ => none) source t ∧
      t.next? = some ⟨.load, [2, 1], .load 2 1, 0xA210, Text.utf8 "A210"⟩ ∧
      t.machine.registers[1] = 200 ∧ t.stepResult = .ok true ∧
      (∀ v ∈ t.machine.memory, 0 ≤ v.toInt ∧ v.toInt ≤ 255) ∧
      ∀ input, (t.stepThrough input).result = .ok () := by
  let source := Text.utf8 "mov4 R0 200\nmov1 R1 0\nmov3 R1 R1\nload R2 R1\njz R2 2"
  let p : Program := #[⟨.mov4, [0, 200], .mov4 0 200, 0x30C8, Text.utf8 "30C8"⟩,
    ⟨.mov1, [1, 0], .mov1 1 0, 0x0100, Text.utf8 "0100"⟩,
    ⟨.mov3, [1, 1], .mov3 1 1, 0x2110, Text.utf8 "2110"⟩,
    ⟨.load, [2, 1], .load 2 1, 0xA210, Text.utf8 "A210"⟩,
    ⟨.jz, [2, 2], .jz 2 2, 0x6202, Text.utf8 "6202"⟩]
  have hp : assemble source = .ok p := by decide +kernel
  have hmoves : ∀ i ∈ p.toList, i.op ∉ [.add, .subt, .mul] := by decide +kernel
  have hload : Driven (fun _ => none) source (start p) :=
    .load (s := start #[]) (loadSource_eq_ok_iff.2 ⟨p, hp, rfl⟩)
  have hrun := hload.request (r := .run 3) rfl
  have hdone : ((start p).perform (fun _ => none) (.run 3)).session.done = false := by
    decide +kernel
  obtain ⟨-, hcells, hstep, -, hdialogue⟩ := Driven.no_fault_without_arithmetic hp hmoves hrun
  rw [hdone] at hstep
  exact ⟨source, p, _, hp, hmoves, hrun, by decide +kernel, by decide +kernel, hstep, hcells,
    hdialogue⟩

end Session

end NibbleMachine
