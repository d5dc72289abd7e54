import Mathlib.Data.List.Basic
import Mathlib.Data.List.GetD
import NibbleMachine.Instruction.Word
import NibbleMachine.Proofs.Text.Numerals

/-!
Which operands have a word, and that the word gives them back.

A word is built from the left: after so many registers it is a number `q` above the fields that are
still free, and one register more makes it `16 * q + r` above one field less. So a field that is
filled stays where it is, whatever comes to stand to its right, and this is what the induction on
the registers carries along.
-/

namespace NibbleMachine

/-! ### Results -/

theorem bind_eq_ok_iff {ε α β : Type} {x : Except ε α} {f : α → Except ε β} {b : β} :
    x >>= f = .ok b ↔ ∃ a, x = .ok a ∧ f a = .ok b := by
  cases x <;> simp [bind, Except.bind]

theorem map_eq_ok_iff {ε α β : Type} {x : Except ε α} {f : α → β} {b : β} :
    f <$> x = .ok b ↔ ∃ a, x = .ok a ∧ f a = b := by
  cases x <;> simp [Functor.map, Except.map]

theorem bind_eq_error_iff {ε α β : Type} {x : Except ε α} {f : α → Except ε β} {e : ε} :
    x >>= f = .error e ↔ x = .error e ∨ ∃ a, x = .ok a ∧ f a = .error e := by
  cases x <;> simp [bind, Except.bind]

theorem map_eq_error_iff {ε α β : Type} {x : Except ε α} {f : α → β} {e : ε} :
    f <$> x = .error e ↔ x = .error e := by
  cases x <;> simp [Functor.map, Except.map]

/-! ### The table -/

namespace Opcode

theorem registers_le (op : Opcode) : op.shape.registers.toNat ≤ 3 := by cases op <;> decide

theorem code_le (op : Opcode) : op.code ≤ 15 := by cases op <;> decide

theorem count_toNat (op : Opcode) :
    op.shape.count.toNat = op.shape.registers.toNat + op.shape.immediate.toNat := by
  cases op <;> rfl

theorem immediateWidth_toNat (op : Opcode) :
    (immediateWidth op.shape.registers).toNat = 4 * (3 - op.shape.registers.toNat) := by
  cases op <;> rfl

theorem immediateWidth_eq (op : Opcode) :
    (immediateWidth op.shape.registers).toNat = 12 - 4 * op.shape.registers.toNat := by
  rw [op.immediateWidth_toNat]
  omega

theorem ofCode?_code (op : Opcode) : ofCode? op.code = some op := by cases op <;> decide

theorem ofCode?_eq_some_iff {n : Nat} {op : Opcode} : ofCode? n = some op ↔ n = op.code := by
  constructor
  · intro h
    rw [ofCode?] at h
    have hcode := List.find?_some h
    exact (beq_iff_eq.1 hcode).symm
  · rintro rfl
    exact ofCode?_code op

end Opcode

namespace Word

/-! ### Registers in their fields -/

/-- The number that registers make in their fields, of which the first is operand field `i`. -/
def packed : Nat → List Operand → Nat
  | _, [] => 0
  | i, r :: rs => r.toNat * 2 ^ (4 * (2 - i)) + packed (i + 1) rs

theorem packRegisters_eq_ok_iff (op : Opcode) : ∀ (rs : List Operand) (i n : Nat),
    packRegisters op i rs = .ok n ↔ (∀ r ∈ rs, r.toNat ≤ 15) ∧ n = packed i rs
  | [], i, n => by simp [packRegisters, packed, eq_comm]
  | r :: rs, i, n => by
    rw [packRegisters]
    split
    · rename_i hr
      have hr' : r.toNat ≤ 15 := Nat.le_of_lt_succ hr
      rw [bind_eq_ok_iff]
      simp only [packRegisters_eq_ok_iff op rs, List.forall_mem_cons, hr', true_and, packed,
        Nat.shiftLeft_eq, fieldBits, operandFields]
      constructor
      · rintro ⟨m, ⟨hrs, rfl⟩, hn⟩
        exact ⟨hrs, (Except.ok.inj hn).symm⟩
      · rintro ⟨hrs, rfl⟩
        exact ⟨_, ⟨hrs, rfl⟩, rfl⟩
    · rename_i hr
      have hr' : ¬ r.toNat ≤ 15 := fun h => hr (Nat.lt_succ_of_le h)
      simp [hr']

theorem pow_fields {i : Nat} (hi : i < 3) : 2 ^ (4 * (3 - i)) = 16 * 2 ^ (4 * (2 - i)) := by
  rw [show 4 * (3 - i) = 4 + 4 * (2 - i) by omega, Nat.pow_add]

/-- Registers, and what is below them, do not reach beyond their first field. -/
theorem packed_add_lt : ∀ (rs : List Operand) (i low : Nat), i + rs.length ≤ 3 →
    (∀ r ∈ rs, r.toNat ≤ 15) → low < 2 ^ (4 * (3 - (i + rs.length))) →
    packed i rs + low < 2 ^ (4 * (3 - i))
  | [], i, low, _, _, hlow => by simpa [packed] using hlow
  | r :: rs, i, low, hlen, hrs, hlow => by
    simp only [List.length_cons] at hlen hlow
    have hrest := packed_add_lt rs (i + 1) low (by omega) (fun x hx => hrs x (by simp [hx]))
      (by rwa [show i + 1 + rs.length = i + (rs.length + 1) by omega])
    have hr : r.toNat * 2 ^ (4 * (2 - i)) ≤ 15 * 2 ^ (4 * (2 - i)) :=
      Nat.mul_le_mul_right _ (hrs r (by simp))
    rw [show 3 - (i + 1) = 2 - i by omega] at hrest
    rw [packed, pow_fields (by omega)]
    omega

theorem dvd_packed : ∀ (rs : List Operand) (i : Nat), i + rs.length ≤ 3 →
    2 ^ (4 * (3 - (i + rs.length))) ∣ packed i rs
  | [], i, _ => Nat.dvd_zero _
  | r :: rs, i, hlen => by
    simp only [List.length_cons] at hlen ⊢
    have hrest := dvd_packed rs (i + 1) (by omega)
    rw [show i + 1 + rs.length = i + (rs.length + 1) by omega] at hrest
    exact Nat.dvd_add (Nat.dvd_mul_left_of_dvd (Nat.pow_dvd_pow 2 (by omega)) _) hrest

/-- A field that holds a register is read back, whatever stands above the fields and below the
    registers. -/
theorem field_packed : ∀ (rs : List Operand) (i q low k : Nat), i + rs.length ≤ 3 →
    (∀ r ∈ rs, r.toNat ≤ 15) → low < 2 ^ (4 * (3 - (i + rs.length))) → (hk : k < rs.length) →
    (q * 2 ^ (4 * (3 - i)) + packed i rs + low) / 2 ^ (4 * (2 - (i + k))) % 16 = rs[k].toNat
  | r :: rs, i, q, low, k, hlen, hrs, hlow, hk => by
    simp only [List.length_cons] at hlen hlow hk
    have hlow' : low < 2 ^ (4 * (3 - (i + 1 + rs.length))) := by
      rwa [show i + 1 + rs.length = i + (rs.length + 1) by omega]
    have hrs' : ∀ x ∈ rs, x.toNat ≤ 15 := fun x hx => hrs x (by simp [hx])
    -- the register joins what stands above the fields that are left
    have hjoin : q * 2 ^ (4 * (3 - i)) + packed i (r :: rs) + low =
        (16 * q + r.toNat) * 2 ^ (4 * (3 - (i + 1))) + packed (i + 1) rs + low := by
      rw [packed, pow_fields (by omega), show 3 - (i + 1) = 2 - i by omega, Nat.add_mul]
      ac_rfl
    rw [hjoin]
    cases k with
    | zero =>
      have hrest := packed_add_lt rs (i + 1) low (by omega) hrs' hlow'
      have hr : r.toNat ≤ 15 := hrs r (by simp)
      rw [show 3 - (i + 1) = 2 - i by omega] at hrest ⊢
      rw [Nat.add_zero i, Nat.add_assoc, Nat.mul_comm, Nat.mul_add_div (Nat.two_pow_pos _),
        Nat.div_eq_of_lt hrest, List.getElem_cons_zero]
      omega
    | succ k =>
      have ih := field_packed rs (i + 1) (16 * q + r.toNat) low k (by omega) hrs' hlow' (by omega)
      rwa [show i + 1 + k = i + (k + 1) by omega] at ih

/-! ### Words -/

/-- The operands that fit a word: as many as the instruction takes, each register within a field
    and the immediate within the bits after the registers. -/
structure Fits (op : Opcode) (args : List Operand) : Prop where
  count : args.length = op.shape.count.toNat
  register : ∀ r ∈ args.take op.shape.registers.toNat, r.toNat ≤ 15
  immediate : op.shape.immediate = true →
    (args.getLastD 0).toNat < 2 ^ (12 - 4 * op.shape.registers.toNat)

/-- The immediate among the operands, or zero if the instruction takes none. -/
def immediateOf (op : Opcode) (args : List Operand) : Nat :=
  if op.shape.immediate then (args.getLastD 0).toNat else 0

/-- The number in the word of an instruction. -/
def number (op : Opcode) (args : List Operand) : Nat :=
  op.code * 2 ^ 12 + packed 0 (args.take op.shape.registers.toNat) + immediateOf op args

namespace Fits

variable {op : Opcode} {args : List Operand}

theorem length_take (h : Fits op args) :
    (args.take op.shape.registers.toNat).length = op.shape.registers.toNat := by
  rw [List.length_take, h.count, op.count_toNat]
  omega

theorem register_lt (h : Fits op args) {k : Nat} (hk : k < op.shape.registers.toNat) :
    (args.getD k 0).toNat < 16 := by
  have htake : k < (args.take op.shape.registers.toNat).length := by rwa [h.length_take]
  have hargs : k < args.length := Nat.lt_of_lt_of_le htake (List.length_take_le' _ _)
  have hle := h.register _ (List.getElem_mem htake)
  rw [List.getElem_take] at hle
  rw [List.getD_eq_getElem _ _ hargs]
  exact Nat.lt_succ_of_le hle

/-- The immediate is the operand after the registers. -/
theorem immediate_lt (h : Fits op args) (himm : op.shape.immediate = true) :
    (args.getD op.shape.registers.toNat 0).toNat < 2 ^ (12 - 4 * op.shape.registers.toNat) := by
  have hlen := h.count
  rw [op.count_toNat, himm, Bool.toNat_true] at hlen
  have hlast := h.immediate himm
  rwa [List.getLastD_eq_getLast?, List.getLast?_eq_getElem?, hlen, Nat.add_sub_cancel] at hlast

/-- The operands are the registers and then the immediate. -/
theorem args_eq (h : Fits op args) :
    args = args.take op.shape.registers.toNat
      ++ if op.shape.immediate then [args.getLastD 0] else [] := by
  have hlen := h.count
  rw [op.count_toNat] at hlen
  cases himm : op.shape.immediate with
  | false =>
    rw [himm, Bool.toNat_false, Nat.add_zero] at hlen
    simp [List.take_of_length_le (Nat.le_of_eq hlen)]
  | true =>
    rw [himm, Bool.toNat_true] at hlen
    have hne : args ≠ [] := by rintro rfl; simp at hlen
    have hinit : args.take op.shape.registers.toNat = args.dropLast := by
      rw [List.dropLast_eq_take, hlen, Nat.add_sub_cancel]
    rw [hinit, if_pos rfl, List.getLastD_eq_getLast?, List.getLast?_eq_getLast_of_ne_nil hne,
      Option.getD_some, List.dropLast_append_getLast hne]

theorem immediateOf_lt (h : Fits op args) :
    immediateOf op args < 2 ^ (4 * (3 - op.shape.registers.toNat)) := by
  rw [immediateOf]
  split
  · rename_i himm
    have hwidth : 12 - 4 * op.shape.registers.toNat = 4 * (3 - op.shape.registers.toNat) := by
      omega
    exact hwidth ▸ h.immediate himm
  · exact Nat.two_pow_pos _

theorem number_low_lt (h : Fits op args) :
    packed 0 (args.take op.shape.registers.toNat) + immediateOf op args < 2 ^ 12 := by
  refine packed_add_lt _ 0 _ ?_ h.register ?_
  · rw [h.length_take, Nat.zero_add]
    exact op.registers_le
  · rw [h.length_take, Nat.zero_add]
    exact h.immediateOf_lt

theorem number_lt (h : Fits op args) : number op args < 2 ^ 16 := by
  have := h.number_low_lt
  have := op.code_le
  rw [number]
  omega

end Fits

theorem packImmediate_eq_ok_iff {op : Opcode} {args : List Operand} {n : Nat} :
    packImmediate op args = .ok n ↔
      (op.shape.immediate = true →
        (args.getLastD 0).toNat < 2 ^ (12 - 4 * op.shape.registers.toNat)) ∧
      n = immediateOf op args := by
  rw [packImmediate, immediateOf, op.immediateWidth_eq, Nat.one_shiftLeft]
  cases himm : op.shape.immediate with
  | false => simp [eq_comm]
  | true =>
    by_cases hlt : (args.getLastD 0).toNat < 2 ^ (12 - 4 * op.shape.registers.toNat)
    · simp only [if_true, hlt, Except.ok.injEq, imp_self, true_and, eq_comm]
    · simp only [if_true, hlt, if_false, reduceCtorEq, forall_const, false_and]

/-- The numbers of instructions fit the top field, and what the registers and the immediate make
    below it never reaches it. So two of the checks never fail. -/
theorem encode_eq (op : Opcode) (args : List Operand) :
    encode op args = if args.length = op.shape.count.toNat then do
      let registers ← packRegisters op 0 (args.take op.shape.registers.toNat)
      let immediate ← packImmediate op args
      return (op.code * 2 ^ 12 + registers + immediate).toUInt16
    else .error (.incomplete op) := by
  have hcode : ¬ 1 <<< fieldBits ≤ op.code := Nat.not_le.2 (Nat.lt_succ_of_le op.code_le)
  have htop : op.code <<< (fieldBits * operandFields) = op.code * 2 ^ 12 := Nat.shiftLeft_eq _ _
  rw [encode, if_neg hcode, htop]
  by_cases hcount : args.length = op.shape.count.toNat
  · rw [if_neg (not_not_intro hcount), if_pos hcount]
    cases hregs : packRegisters op 0 (args.take op.shape.registers.toNat) with
    | error c => rfl
    | ok registers =>
      cases himm : packImmediate op args with
      | error c => rfl
      | ok immediate =>
        obtain ⟨hregister, rfl⟩ := (packRegisters_eq_ok_iff _ _ _ _).1 hregs
        obtain ⟨himmediate, rfl⟩ := packImmediate_eq_ok_iff.1 himm
        have hlt := Fits.number_lt ⟨hcount, hregister, himmediate⟩
        exact if_neg (Nat.not_le.2 hlt)
  · rw [if_pos hcount, if_neg hcount]

/-- Exactly the operands that fit have a word. -/
theorem encode_eq_ok_iff {op : Opcode} {args : List Operand} {w : Word} :
    encode op args = .ok w ↔ Fits op args ∧ w.toNat = number op args := by
  rw [encode_eq]
  split
  · rename_i hcount
    simp only [bind_eq_ok_iff, packRegisters_eq_ok_iff, packImmediate_eq_ok_iff]
    constructor
    · rintro ⟨_, ⟨hregs, rfl⟩, _, ⟨himm, rfl⟩, hw⟩
      have hfits : Fits op args := ⟨hcount, hregs, himm⟩
      refine ⟨hfits, ?_⟩
      rw [← Except.ok.inj hw]
      exact Nat.mod_eq_of_lt hfits.number_lt
    · rintro ⟨hfits, hw⟩
      refine ⟨_, ⟨hfits.register, rfl⟩, _, ⟨hfits.immediate, rfl⟩, ?_⟩
      refine congrArg Except.ok (UInt16.toNat_inj.1 ?_)
      rw [hw]
      exact Nat.mod_eq_of_lt hfits.number_lt
  · rename_i hcount
    simp only [reduceCtorEq, false_iff]
    exact fun h => hcount h.1.count

/-! ### Reading a word back -/

variable {op : Opcode} {args : List Operand} {w : Word}

theorem topField_of_encode (h : encode op args = .ok w) : w.topField = op.code := by
  obtain ⟨hfits, hw⟩ := encode_eq_ok_iff.1 h
  have hlow := hfits.number_low_lt
  rw [topField, hw, Nat.shiftRight_eq_div_pow, number, fieldBits, operandFields, Nat.add_assoc]
  omega

theorem operandField_eq (w : Word) (k : Nat) :
    w.operandField k = w.toNat / 2 ^ (4 * (2 - k)) % 16 := by
  rw [operandField, Nat.shiftRight_eq_div_pow]
  rfl

/-- Register `k` stands in field `k`. -/
theorem operandField_of_encode (h : encode op args = .ok w) {k : Nat}
    (hk : k < (args.take op.shape.registers.toNat).length) :
    w.operandField k = ((args.take op.shape.registers.toNat)[k]).toNat := by
  obtain ⟨hfits, hw⟩ := encode_eq_ok_iff.1 h
  have hle := op.registers_le
  have hfield := field_packed _ 0 op.code (immediateOf op args) k
    (by rw [hfits.length_take]; omega) hfits.register
    (by rw [hfits.length_take, Nat.zero_add]; exact hfits.immediateOf_lt) hk
  rw [operandField_eq, hw, number]
  simpa using hfield

/-- The immediate stands at the low end. -/
theorem mod_immediateWidth_of_encode (h : encode op args = .ok w) :
    w.toNat % 2 ^ (immediateWidth op.shape.registers).toNat = immediateOf op args := by
  obtain ⟨hfits, hw⟩ := encode_eq_ok_iff.1 h
  have hle := op.registers_le
  have hregs := dvd_packed (args.take op.shape.registers.toNat) 0
    (by rw [hfits.length_take]; omega)
  rw [hfits.length_take, Nat.zero_add] at hregs
  have htop : 2 ^ (4 * (3 - op.shape.registers.toNat)) ∣ op.code * 2 ^ 12 :=
    Nat.dvd_mul_left_of_dvd (Nat.pow_dvd_pow 2 (by omega)) _
  obtain ⟨c, hc⟩ := Nat.dvd_add htop hregs
  rw [hw, op.immediateWidth_toNat, number, hc, Nat.mul_add_mod,
    Nat.mod_eq_of_lt hfits.immediateOf_lt]

/-- The operands of a word are the ones it was made of. -/
theorem operands_of_encode (h : encode op args = .ok w) : operands op w = args := by
  have hfits := (encode_eq_ok_iff.1 h).1
  have hregs : (List.range op.shape.registers.toNat).map
      (fun i => UInt32.ofNat (w.operandField i)) = args.take op.shape.registers.toNat := by
    refine List.ext_getElem (by simp [hfits.length_take]) fun k hk hk' => ?_
    rw [List.getElem_map, List.getElem_range, operandField_of_encode h hk', UInt32.ofNat_toNat]
  rw [operands, hregs, Nat.one_shiftLeft, mod_immediateWidth_of_encode h]
  conv_rhs => rw [hfits.args_eq]
  rw [immediateOf]
  split
  · rw [UInt32.ofNat_toNat]
  · rfl

/-! ### The digits of a word -/

/-- A word in four hexadecimal digits. -/
def digits (w : Word) : Text := (Text.numeral .hexadecimal true w.toNat).leftpad 4 48

theorem hex_eq_ok (w : Word) : Text.hex w.toUInt64 4 = .ok w.digits := by
  have hlt := w.toNat_lt
  rw [Text.hex, if_neg (fun h => absurd h.2 (by simpa [fieldBits] using hlt))]
  rfl

theorem length_digits (w : Word) : w.digits.length = 4 := by
  have hlen := Radix.digits_length_le .hexadecimal 3 w.toNat w.toNat_lt
  rw [digits, List.length_leftpad, Text.numeral, List.length_map]
  omega

theorem spelled_digits (w : Word) : Text.spelled .hexadecimal w.digits = w.toNat := by
  rw [digits, Text.spelled_leftpad, Text.spelled_numeral]

theorem digits_inj {v w : Word} (h : v.digits = w.digits) : v = w := by
  rw [← UInt16.toNat_inj, ← spelled_digits, h, spelled_digits]

/-- A byte that is no capital hexadecimal digit is not among the digits of a word. -/
theorem notMem_digits {b : UInt8} (hb : ∀ d < 16, Text.digitByte true d ≠ b) (w : Word) :
    b ∉ w.digits := by
  have hzero : b ≠ 48 := (hb 0 (by decide)).symm
  intro h
  rw [digits, List.leftpad] at h
  rcases List.mem_append.1 h with h | h
  · exact hzero (List.eq_of_mem_replicate h)
  · exact Text.notMem_numeral .hexadecimal true hb _ h

end Word

/-! ### Instructions -/

theorem Operation.ofArgs_eq_ok_iff {op : Opcode} {args : List Operand} {o : Operation} :
    ofArgs op args = .ok o ↔
      args.length = op.shape.count.toNat ∧ ofArg op (args.getD · 0) = o := by
  rw [ofArgs]
  split <;> simp [*]

namespace Instruction

/-- What an assembled instruction consists of. -/
theorem assemble_eq_ok_iff {op : Opcode} {args : List Operand} {i : Instruction} :
    Instruction.assemble op args = .ok i ↔
      i.op = op ∧ i.args = args ∧ Word.encode op args = .ok i.word ∧ i.hex = i.word.digits ∧
        Operation.ofArgs op args = .ok i.operation := by
  simp only [Instruction.assemble, bind_eq_ok_iff, Word.hex_eq_ok, Except.ok.injEq]
  constructor
  · rintro ⟨w, hw, _, rfl, o, ho, hi⟩
    rw [← Except.ok.inj hi]
    exact ⟨rfl, rfl, hw, rfl, ho⟩
  · rintro ⟨rfl, rfl, hw, hhex, ho⟩
    refine ⟨i.word, hw, _, rfl, i.operation, ho, ?_⟩
    rw [← hhex]
    rfl

/-- Operands are assembled exactly if they fit. -/
theorem exists_assemble_iff {op : Opcode} {args : List Operand} :
    (∃ i, Instruction.assemble op args = .ok i) ↔ Word.Fits op args := by
  constructor
  · rintro ⟨i, hi⟩
    exact (Word.encode_eq_ok_iff.1 (assemble_eq_ok_iff.1 hi).2.2.1).1
  · intro h
    have ho := Operation.ofArgs_eq_ok_iff.2 ⟨h.count, rfl⟩
    obtain ⟨w, hw⟩ : ∃ w, Word.encode op args = .ok w :=
      ⟨_, Word.encode_eq_ok_iff.2 ⟨h, UInt16.toNat_ofNat_of_lt' h.number_lt⟩⟩
    exact ⟨⟨op, args, _, w, w.digits⟩, assemble_eq_ok_iff.2 ⟨rfl, rfl, hw, rfl, ho⟩⟩

/-- An instruction as the assembler makes it from its name and operands. -/
def Assembled (i : Instruction) : Prop := Instruction.assemble i.op i.args = .ok i

theorem assembled_of_assemble {op : Opcode} {args : List Operand} {i : Instruction}
    (h : Instruction.assemble op args = .ok i) : i.Assembled := by
  obtain ⟨rfl, rfl, -⟩ := assemble_eq_ok_iff.1 h
  exact h

namespace Assembled

variable {i : Instruction}

theorem encode (h : i.Assembled) : Word.encode i.op i.args = .ok i.word :=
  (assemble_eq_ok_iff.1 h).2.2.1

theorem hex (h : i.Assembled) : i.hex = i.word.digits := (assemble_eq_ok_iff.1 h).2.2.2.1

theorem operation (h : i.Assembled) : Operation.ofArgs i.op i.args = .ok i.operation :=
  (assemble_eq_ok_iff.1 h).2.2.2.2

theorem fits (h : i.Assembled) : Word.Fits i.op i.args := exists_assemble_iff.1 ⟨i, h⟩

end Assembled

end Instruction

end NibbleMachine
