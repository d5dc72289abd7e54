import NibbleMachine.Proofs.OutputLog

/-!
A program changes only what it names.

An operation writes one register, or one cell, or the output log, or nothing. Which register or
cell that is stands among its operands, except for `mov3`, which takes the address from a register.
A fresh machine is zero throughout, so whatever is not zero after any number of steps was written
by an instruction of the program, and this instruction names it.
-/

namespace NibbleMachine

/-! ### One operation -/

namespace Operation

/-- The register that an operation writes. -/
def destination? : Operation → Option Nat
  | mov1 rn _ => some rn
  | add rd _ _ => some rd
  | subt rd _ _ => some rd
  | mul rd _ _ => some rd
  | load rd _ => some rd
  | _ => none

/-- The cell that an operation writes on a machine. -/
def cell? (m : Machine) : Operation → Option Nat
  | mov2 _ addr => some addr
  | mov3 rn _ => some (m.reg rn).toInt.toNat
  | mov4 addr _ => some addr
  | _ => none

variable {o : Operation} {m : Machine}

/-- Only the destination of an operation changes among the registers. -/
theorem reg_effect {r : Nat} (h : o.destination? ≠ some r) : (o.effect m).reg r = m.reg r := by
  have hput : ∀ {rd : Nat} (v : Value), some rd ≠ some r → (m.putReg rd v).reg r = m.reg r := by
    intro rd v hrd
    rw [Machine.reg_putReg, if_neg fun hr => hrd (congrArg some hr.1)]
  cases o with
  | mov1 rn addr => exact hput _ h
  | add rd ra rb => exact hput _ h
  | subt rd ra rb => exact hput _ h
  | jz rn target =>
    rw [effect]
    split <;> rfl
  | mul rd ra rb => exact hput _ h
  | load rd rs => exact hput _ h
  | _ => rfl

/-- Only the cell that an operation writes changes in memory. -/
theorem mem_effect {a : Nat} (h : o.cell? m ≠ some a) : (o.effect m).mem a = m.mem a := by
  have hput : ∀ {b : Nat} (v : Value), some b ≠ some a → (m.putMem b v).mem a = m.mem a := by
    intro b v hb
    rw [Machine.mem_putMem, if_neg fun ha => hb (congrArg some ha.1)]
  cases o with
  | mov2 rn addr => exact hput _ h
  | mov3 rn rm => exact hput _ h
  | mov4 addr imm => exact hput _ h
  | jz rn target =>
    rw [effect]
    split <;> rfl
  | _ => rfl

end Operation

/-! ### What an instruction names -/

namespace Instruction

/-- The register that an instruction names as its destination: the first operand, if it is a
    `mov1`, a `load` or arithmetic. -/
def destination? (i : Instruction) : Option Nat :=
  match i.op with
  | .mov1 | .add | .subt | .mul | .load => i.args[0]?.map (·.toNat)
  | .mov2 | .mov3 | .mov4 | .jz | .halt | .readm => none

/-- The cell that an instruction names to be written: the address of a `mov2`, and the number of
    the register in a `mov4`. -/
def cell? (i : Instruction) : Option Nat :=
  match i.op with
  | .mov2 => i.args[1]?.map (·.toNat)
  | .mov4 => i.args[0]?.map (·.toNat)
  | _ => none

namespace Assembled

variable {i : Instruction}

theorem getElem?_args (h : i.Assembled) {k : Nat} (hk : k < i.op.shape.count.toNat) :
    i.args[k]?.map (·.toNat) = some (i.args.getD k 0).toNat := by
  rw [← h.fits.count] at hk
  rw [List.getElem?_eq_getElem hk, List.getD_eq_getElem _ _ hk, Option.map_some]

/-- An assembled instruction writes the register that it names. -/
theorem destination?_operation (h : i.Assembled) :
    i.operation.destination? = i.destination? := by
  obtain ⟨-, ho⟩ := Operation.ofArgs_eq_ok_iff.1 h.operation
  have hargs := @h.getElem?_args
  rw [← ho, destination?]
  cases hop : i.op with
  | mov1 | add | subt | mul | load =>
    rw [hop] at hargs
    exact (hargs (by decide)).symm
  | _ => rfl

/-- An assembled instruction writes the cell that it names, unless it is a `mov3`. -/
theorem cell?_operation (h : i.Assembled) (hop : i.op ≠ .mov3) (m : Machine) :
    i.operation.cell? m = i.cell? := by
  obtain ⟨-, ho⟩ := Operation.ofArgs_eq_ok_iff.1 h.operation
  have hargs := @h.getElem?_args
  rw [← ho, cell?]
  cases hname : i.op with
  | mov2 | mov4 =>
    rw [hname] at hargs
    exact (hargs (by decide)).symm
  | mov3 => exact absurd hname hop
  | _ => rfl

end Assembled

end Instruction

/-! ### Runs -/

/-- `Named p m`: what is not zero in the machine `m` is named by an instruction of `p`. -/
structure Named (p : Program) (m : Machine) : Prop where
  register : ∀ {r : Nat}, m.reg r ≠ 0 → ∃ i ∈ p.toList, i.destination? = some r
  cell : ∀ {a : Nat}, m.mem a ≠ 0 → ∃ i ∈ p.toList, i.cell? = some a ∨ i.op = .mov3
  output : m.output ≠ #[] → ∃ i ∈ p.toList, i.op = .readm

namespace Named

variable {p : Program} {m : Machine}

theorem fresh (p : Program) : Named p {} where
  register {r} h := absurd (Machine.reg_fresh r) h
  cell {a} h := absurd (Machine.mem_fresh a) h
  output h := absurd rfl h

/-- An instruction of the program adds only what it names itself. -/
theorem effect (h : Named p m) {i : Instruction} (hi : i ∈ p.toList) (hassembled : i.Assembled) :
    Named p (i.operation.effect m) where
  register {r} hr := by
    by_cases hdest : i.operation.destination? = some r
    · exact ⟨i, hi, hassembled.destination?_operation ▸ hdest⟩
    · rw [Operation.reg_effect hdest] at hr
      exact h.register hr
  cell {a} ha := by
    by_cases hop : i.op = .mov3
    · exact ⟨i, hi, Or.inr hop⟩
    · by_cases hcell : i.operation.cell? m = some a
      · exact ⟨i, hi, Or.inl (hassembled.cell?_operation hop m ▸ hcell)⟩
      · rw [Operation.mem_effect hcell] at ha
        exact h.cell ha
  output hout := by
    cases hlog : i.operation.output? with
    | none =>
      rw [Operation.effect_output_of_none hlog] at hout
      exact h.output hout
    | some v =>
      have hop := Operation.output?_eq_some_iff.1 hlog
      exact ⟨i, hi, by rw [hassembled.op_eq, hop, Operation.opcode]⟩

end Named

namespace Session

theorem named_after {p : Program} (hp : p.Assembled) (k : Nat) :
    Named p ((start p).after k).machine :=
  machine_induction (Named.fresh p) (fun _ h => ⟨h.register, h.cell, h.output⟩)
    (fun h => ⟨h.register, h.cell, h.output⟩) (fun h hi => h.effect hi (hp _ hi)) k

/-- A step changes no register but the one that its instruction names. -/
theorem reg_afterStep {s : Session} (hp : s.program.Assembled) {i : Instruction}
    (hnext : s.next? = some i) {r : Nat} (hr : i.destination? ≠ some r) :
    s.afterStep.machine.reg r = s.machine.reg r := by
  have hi : i.Assembled := hp i (mem_program_of_next? hnext)
  have hcases := step_cases s
  rw [afterStep]
  generalize s.step = result at hcases ⊢
  cases hcases with
  | idle _ => rfl
  | made h =>
    obtain rfl := Option.some.inj (hnext.symm.trans h)
    rw [← hi.destination?_operation] at hr
    exact Operation.reg_effect hr
  | failed _ _ => rfl

/-- A program changes only what it names: the destinations of its instructions, the cells of its
    `mov2` and `mov4`, any cells if it has a `mov3`, and the output log if it has a `readm`. And a
    step changes no register but the destination of its instruction. -/
theorem Driven.changes_only_named {files : Files} {source : Text} {p : Program} {t : Session}
    (hp : assemble source = .ok p) (h : Driven files source t) :
    (∀ (r : Nat) (_ : r < 16), t.machine.registers[r] = 0 ∨
      ∃ i ∈ p.toList, i.destination? = some r) ∧
    (∀ (a : Nat) (_ : a < 256), t.machine.memory[a] = 0 ∨
      ∃ i ∈ p.toList, i.cell? = some a ∨ i.op = .mov3) ∧
    ((∀ i ∈ p.toList, i.op ≠ .mov3) → ∀ (a : Nat) (_ : a < 256), t.machine.memory[a] ≠ 0 →
      ∃ i ∈ p.toList, i.cell? = some a) ∧
    (t.machine.output = #[] ∨ ∃ i ∈ p.toList, i.op = .readm) ∧
    ∀ i, t.next? = some i →
      (∀ (r : Nat) (_ : r < 16), i.destination? ≠ some r →
        t.afterStep.machine.registers[r] = t.machine.registers[r]) ∧
      (i.op ∈ [.mov2, .mov3, .mov4, .jz] →
        t.afterStep.machine.registers = t.machine.registers) := by
  obtain ⟨q, k, hq, rfl⟩ := h.exists_after
  obtain rfl : p = q := Except.ok.inj (hp.symm.trans hq)
  have hassembled := assembled_of_assemble hp
  have hnamed := named_after hassembled k
  have hcell : ∀ (a : Nat) (ha : a < 256), ((start p).after k).machine.memory[a] ≠ 0 →
      ∃ i ∈ p.toList, i.cell? = some a ∨ i.op = .mov3 := by
    intro a ha hne
    exact hnamed.cell (by rwa [Machine.mem_of_lt ha])
  have hstep : ∀ i, ((start p).after k).next? = some i → ∀ (r : Nat) (_ : r < 16),
      i.destination? ≠ some r → ((start p).after k).afterStep.machine.registers[r] =
        ((start p).after k).machine.registers[r] := by
    intro i hi r hr hdest
    have hpk : ((start p).after k).program.Assembled := by rwa [after_program]
    rw [← Machine.reg_of_lt hr, ← Machine.reg_of_lt hr, reg_afterStep hpk hi hdest]
  refine ⟨?_, ?_, ?_, ?_, fun i hi => ⟨hstep i hi, ?_⟩⟩
  · intro r hr
    rw [or_iff_not_imp_left, ← Machine.reg_of_lt hr]
    exact hnamed.register
  · intro a ha
    exact or_iff_not_imp_left.2 (hcell a ha)
  · intro hmov3 a ha hne
    obtain ⟨i, hi, hname | hop⟩ := hcell a ha hne
    · exact ⟨i, hi, hname⟩
    · exact absurd hop (hmov3 i hi)
  · exact or_iff_not_imp_left.2 hnamed.output
  · intro hop
    have hnone : i.destination? = none := by
      simp only [List.mem_cons, List.not_mem_nil, or_false] at hop
      rcases hop with hop | hop | hop | hop <;> rw [Instruction.destination?, hop]
    exact Vector.ext fun r hr => hstep i hi r hr (by simp [hnone])

/-- A program without `mov3` that runs into a fault. -/
theorem Driven.changes_only_named_faulting :
    ∃ source p t, assemble source = .ok p ∧ Driven (fun _ => none) source t ∧
      t.machine.registers[4] = -7 ∧ t.machine.memory[200] = -7 ∧
      (∀ (r : Nat) (_ : r < 16), r ∉ [3, 4, 6] → t.machine.registers[r] = 0) ∧
      ∀ (a : Nat) (_ : a < 256), a ∉ [2, 200] → t.machine.memory[a] = 0 := by
  let source := Text.utf8
    "mov4 R2 7\nmov1 R3 2\nsubt R4 R5 R3\nmov2 R4 200\nload R6 R4\nreadm 1"
  let p : Program := #[⟨.mov4, [2, 7], .mov4 2 7, 0x3207, Text.utf8 "3207"⟩,
    ⟨.mov1, [3, 2], .mov1 3 2, 0x0302, Text.utf8 "0302"⟩,
    ⟨.subt, [4, 5, 3], .subt 4 5 3, 0x5453, Text.utf8 "5453"⟩,
    ⟨.mov2, [4, 200], .mov2 4 200, 0x14C8, Text.utf8 "14C8"⟩,
    ⟨.load, [6, 4], .load 6 4, 0xA640, Text.utf8 "A640"⟩,
    ⟨.readm, [1], .readm 1, 0x7001, Text.utf8 "7001"⟩]
  have hp : assemble source = .ok p := by decide +kernel
  have hregisters : p.toList.filterMap (·.destination?) = [3, 4, 6] := by decide +kernel
  have hcells : p.toList.filterMap (·.cell?) = [2, 200] := by decide +kernel
  have hload : Driven (fun _ => none) source (start p) :=
    .load (s := start #[]) (loadSource_eq_ok_iff.2 ⟨p, hp, rfl⟩)
  -- the run ends in the fault of the `load`, whose destination keeps its zero
  have hrun := hload.request (r := .run 10) rfl
  obtain ⟨hregister, -, hcell, -⟩ := Driven.changes_only_named hp hrun
  refine ⟨source, p, _, hp, hrun, by decide +kernel, by decide +kernel, ?_, ?_⟩
  · intro r hr hname
    refine (hregister r hr).resolve_right ?_
    rintro ⟨i, hi, hdest⟩
    exact hname (hregisters ▸ List.mem_filterMap.2 ⟨i, hi, hdest⟩)
  · intro a ha hname
    by_contra hne
    obtain ⟨i, hi, hnamed⟩ := hcell (by decide +kernel) a ha hne
    exact hname (hcells ▸ List.mem_filterMap.2 ⟨i, hi, hnamed⟩)

end Session

end NibbleMachine
