import NibbleMachine.Instruction.Cause
import NibbleMachine.Proofs.Text.Numerals

/-!
Which shape operands are read by in place of another.

The place of a shape among the standard ones is worked out in 32-bit words, and in these twice the
number of registers wraps around at 2^31. So a number of registers counts only up to its remainder
by 2^31: the check on the place lets through whatever has at most three registers left, and shapes
of 2^31 to 2^31 + 3 registers are read by standard shapes that are not theirs.
-/

namespace NibbleMachine.Shape

/-- The shape that has the registers of another one as far as its place shows them. -/
def remainder (s : Shape) : Shape := ⟨s.registers % 2147483648, s.immediate⟩

variable {s r : Shape}

theorem toNat_registers_remainder (s : Shape) :
    s.remainder.registers.toNat = s.registers.toNat % 2 ^ 31 :=
  UInt32.toNat_mod s.registers 2147483648

theorem eq_remainder_iff : r = s.remainder ↔
    r.registers.toNat = s.registers.toNat % 2 ^ 31 ∧ r.immediate = s.immediate := by
  rw [← toNat_registers_remainder, UInt32.toNat_inj]
  cases r
  simp [remainder]

/-! ### Places -/

theorem toNat_slot (s : Shape) :
    s.slot.toNat = 2 * (s.registers.toNat % 2 ^ 31) + s.immediate.toNat := by
  have hlt := s.registers.toNat_lt
  rw [slot, UInt32.toNat_add, UInt32.toNat_mul]
  cases s.immediate with
  | false =>
    show (s.registers.toNat * 2 % 2 ^ 32 + 0) % 2 ^ 32 = 2 * (s.registers.toNat % 2 ^ 31) + 0
    omega
  | true =>
    show (s.registers.toNat * 2 % 2 ^ 32 + 1) % 2 ^ 32 = 2 * (s.registers.toNat % 2 ^ 31) + 1
    omega

/-- The standard shapes stand in the order of their registers, first without and then with an
    immediate. -/
theorem getElem?_standardShapes (registers : UInt32) (immediate : Bool) :
    standardShapes[2 * registers.toNat + immediate.toNat]? =
      if registers.toNat ≤ 3 then some ⟨registers, immediate⟩ else none := by
  split
  · rename_i hle
    have hcases : registers = 0 ∨ registers = 1 ∨ registers = 2 ∨ registers = 3 := by
      simp only [← UInt32.toNat_inj, UInt32.reduceToNat]
      omega
    rcases hcases with rfl | rfl | rfl | rfl <;> cases immediate <;> rfl
  · rw [List.getElem?_eq_none]
    show 8 ≤ 2 * registers.toNat + immediate.toNat
    omega

theorem standard?_eq (s : Shape) : s.standard? =
    if s.registers.toNat % 2 ^ 31 ≤ 3 then some s.remainder else none := by
  rw [standard?, toNat_slot, ← toNat_registers_remainder]
  exact getElem?_standardShapes s.remainder.registers s.immediate

/-! ### Readers -/

theorem reader_eq_ite (s : Shape) : s.reader =
    if s.registers.toNat % 2 ^ 31 ≤ 3 then .ok s.remainder else .error (.noReader s.registers) := by
  rw [reader, standard?_eq]
  by_cases hle : s.registers.toNat % 2 ^ 31 ≤ 3
  · simp only [if_pos hle]
  · simp only [if_neg hle]

theorem reader_eq_ok_iff :
    s.reader = .ok r ↔ s.registers.toNat % 2 ^ 31 ≤ 3 ∧ r = s.remainder := by
  rw [reader_eq_ite]
  split
  · rename_i hle
    rw [Except.ok.injEq, eq_comm, and_iff_right hle]
  · rename_i hgt
    exact iff_of_false (by simp) fun h => hgt h.1

theorem reader_eq_error_iff {c : Cause} :
    s.reader = .error c ↔ 3 < s.registers.toNat % 2 ^ 31 ∧ c = .noReader s.registers := by
  rw [reader_eq_ite]
  split
  · rename_i hle
    exact iff_of_false (by simp) fun h => Nat.not_lt_of_le hle h.1
  · rename_i hgt
    rw [Except.error.injEq, eq_comm, and_iff_right (Nat.lt_of_not_le hgt)]

/-- Readers are told apart by the registers modulo 2^31. A shape is refused exactly if more than
    three registers remain, with a complaint that names all of them; otherwise it is read by the
    shape that has those that remain, and an immediate if it has one. So a shape is read by itself
    exactly if it has at most three registers, and by another one exactly if it has from 2^31 to
    2^31 + 3. -/
theorem reader_up_to_remainder (s : Shape) :
    (∀ c, s.reader = .error c ↔ 3 < s.registers.toNat % 2 ^ 31 ∧ c = .noReader s.registers) ∧
    (∀ r, s.reader = .ok r ↔ s.registers.toNat % 2 ^ 31 ≤ 3 ∧
      r.registers.toNat = s.registers.toNat % 2 ^ 31 ∧ r.immediate = s.immediate) ∧
    (s.reader = .ok s ↔ s.registers.toNat ≤ 3) ∧
    ((∃ r, s.reader = .ok r ∧ r ≠ s) ↔
      2 ^ 31 ≤ s.registers.toNat ∧ s.registers.toNat ≤ 2 ^ 31 + 3) := by
  have hlt := s.registers.toNat_lt
  have hself : s = s.remainder ↔ s.registers.toNat < 2 ^ 31 := by
    rw [eq_remainder_iff, and_iff_left rfl]
    omega
  refine ⟨fun c => reader_eq_error_iff, fun r => ?_, ?_, ?_⟩
  · rw [reader_eq_ok_iff, eq_remainder_iff]
  · rw [reader_eq_ok_iff, hself]
    omega
  · constructor
    · rintro ⟨r, hr, hne⟩
      obtain ⟨hle, rfl⟩ := reader_eq_ok_iff.1 hr
      have hlarge : ¬ s.registers.toNat < 2 ^ 31 := fun h => hne (hself.2 h).symm
      omega
    · intro hrange
      refine ⟨s.remainder, reader_eq_ok_iff.2 ⟨by omega, rfl⟩, fun h => ?_⟩
      have hsmall := hself.1 h.symm
      omega

/-- The check on the number of registers has a gap: a shape of 2^31 registers is not refused but
    read as if it had none. -/
theorem reader_of_too_many :
    ¬ ∀ s : Shape, ((∃ c, s.reader = .error c) ↔ 3 < s.registers) ∧
      ∀ r, s.reader = .ok r → r = s := by
  intro h
  have hread : (⟨2147483648, false⟩ : Shape).reader = .ok ⟨0, false⟩ := by decide
  have hsame := (h ⟨2147483648, false⟩).2 _ hread
  exact absurd hsame (by decide)

end NibbleMachine.Shape
