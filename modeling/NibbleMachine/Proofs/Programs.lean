import NibbleMachine.Assembly.Program
import NibbleMachine.Proofs.LineGrammar

/-!
Programs that come from a source text: each of their instructions is one that the assembler makes,
and instructions that are written a line each are assembled into a program again.
-/

namespace NibbleMachine

/-! ### Instructions and operations -/

/-- The instruction that an operation belongs to. -/
def Operation.opcode : Operation → Opcode
  | mov1 .. => .mov1
  | mov2 .. => .mov2
  | mov3 .. => .mov3
  | mov4 .. => .mov4
  | add .. => .add
  | subt .. => .subt
  | jz .. => .jz
  | halt => .halt
  | mul .. => .mul
  | load .. => .load
  | readm .. => .readm

/-- An assembled instruction has the operation of its name. -/
theorem Instruction.Assembled.op_eq {i : Instruction} (h : i.Assembled) :
    i.op = i.operation.opcode := by
  obtain ⟨-, ho⟩ := Operation.ofArgs_eq_ok_iff.1 h.operation
  rw [← ho]
  cases i.op <;> rfl

/-- An operand is stored as the number that it is. -/
theorem Operation.toInt_value (a : Operand) : (value a).toInt = a.toNat := by
  have hlt := a.toNat_lt
  exact Int64.toInt_ofNat_of_lt (by omega)

/-! ### Programs -/

/-- A program as the assembler makes it. -/
def Program.Assembled (p : Program) : Prop := ∀ i ∈ p.toList, i.Assembled

theorem assembled_of_assembleLines : ∀ {ls : List Text} {n : Nat} {is : List Instruction},
    assembleLines n ls = .ok is → ∀ i ∈ is, i.Assembled
  | [], n, is, h => by
    obtain rfl : [] = is := Except.ok.inj h
    simp
  | l :: ls, n, is, h => by
    rw [assembleLines] at h
    split at h
    · simp at h
    · rename_i found hfound
      obtain ⟨rest, hrest, rfl⟩ := map_eq_ok_iff.1 h
      intro i hi
      rcases List.mem_append.1 hi with hi | hi
      · have hsome : found = some i := by simpa using hi
        exact (form_of_readLine (hsome ▸ hfound)).2
      · exact assembled_of_assembleLines hrest i hi

theorem assembled_of_assemble {source : Text} {p : Program} (h : assemble source = .ok p) :
    p.Assembled := by
  obtain ⟨is, his, rfl⟩ := map_eq_ok_iff.1 h
  intro i hi
  exact assembled_of_assembleLines his i (by simpa using hi)

/-- Lines that are read as instructions are assembled into these instructions. -/
theorem assembleLines_map (f : Instruction → Text) : ∀ {is : List Instruction} (n : Nat),
    (∀ i ∈ is, readLine (f i) = .ok (some i)) → assembleLines n (is.map f) = .ok is
  | [], _, _ => rfl
  | i :: is, n, h => by
    have hrest := assembleLines_map f (n + 1) fun j hj => h j (List.mem_cons_of_mem i hj)
    rw [List.map_cons, assembleLines, h i (by simp), hrest]
    rfl

end NibbleMachine
