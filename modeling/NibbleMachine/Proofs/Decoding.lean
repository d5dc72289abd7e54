import NibbleMachine.Proofs.Encoding

/-!
Instructions with their operands correspond to words, one to one.

A word comes apart as it was put together: what stands below a field's left end is the field and
what stands below the next one's. So the fields, and the bits below the last of them, make up the
word again, and a word that can be decoded is the word of what it decodes to. Operands that have no
word are turned down for the first thing that is wrong with them.
-/

namespace NibbleMachine.Word

variable {op : Opcode} {args : List Operand} {w : Word} {c : Cause}

/-! ### The operands in a word -/

/-- The number in the bits of a word that an instruction's registers leave. -/
def immediate (op : Opcode) (w : Word) : Nat :=
  w.toNat % 2 ^ (immediateWidth op.shape.registers).toNat

/-- The registers in the first `n` operand fields of a word. -/
def fields (n : Nat) (w : Word) : List Operand :=
  (List.range n).map fun k => UInt32.ofNat (w.operandField k)

theorem toNat_ofNat_operandField (w : Word) (k : Nat) :
    (UInt32.ofNat (w.operandField k)).toNat = w.operandField k := by
  refine UInt32.toNat_ofNat_of_lt' (Nat.lt_of_lt_of_le (Nat.mod_lt _ (by decide)) ?_)
  decide

theorem toNat_ofNat_immediate (op : Opcode) (w : Word) :
    (UInt32.ofNat (w.immediate op)).toNat = w.immediate op := by
  have hle : w.immediate op ≤ w.toNat := Nat.mod_le _ _
  have hlt := w.toNat_lt
  exact UInt32.toNat_ofNat_of_lt' (by rw [UInt32.size]; omega)

theorem immediate_eq (op : Opcode) (w : Word) :
    w.immediate op = w.toNat % 2 ^ (12 - 4 * op.shape.registers.toNat) := by
  rw [immediate, op.immediateWidth_eq]

theorem operands_eq (op : Opcode) (w : Word) :
    operands op w = w.fields op.shape.registers.toNat
      ++ if op.shape.immediate then [UInt32.ofNat (w.immediate op)] else [] := by
  rw [operands, Nat.one_shiftLeft]
  rfl

theorem length_fields (n : Nat) (w : Word) : (w.fields n).length = n := by simp [fields]

theorem take_operands (op : Opcode) (w : Word) :
    (operands op w).take op.shape.registers.toNat = w.fields op.shape.registers.toNat := by
  rw [operands_eq, List.take_left' (length_fields _ w)]

theorem length_operands (op : Opcode) (w : Word) :
    (operands op w).length = op.shape.count.toNat := by
  rw [operands_eq, List.length_append, length_fields, op.count_toNat]
  cases op.shape.immediate <;> rfl

theorem getLastD_operands (himm : op.shape.immediate = true) (w : Word) :
    (operands op w).getLastD 0 = UInt32.ofNat (w.immediate op) := by
  rw [operands_eq, if_pos himm, List.getLastD_concat]

/-- What a word holds fits a word. -/
theorem fits_operands (op : Opcode) (w : Word) : Fits op (operands op w) where
  count := length_operands op w
  register := by
    rw [take_operands]
    intro r hr
    obtain ⟨k, -, rfl⟩ := List.mem_map.1 hr
    rw [toNat_ofNat_operandField, operandField_eq]
    omega
  immediate himm := by
    rw [getLastD_operands himm, toNat_ofNat_immediate, immediate_eq]
    exact Nat.mod_lt _ (Nat.two_pow_pos _)

/-- The fields of a word from `i` on, with what is below the last of them, are what is below the
    left end of field `i`. -/
theorem packed_fields (w : Word) : ∀ n i : Nat, i + n ≤ 3 →
    packed i ((List.range' i n).map fun k => UInt32.ofNat (w.operandField k))
      + w.toNat % 2 ^ (4 * (3 - (i + n))) = w.toNat % 2 ^ (4 * (3 - i))
  | 0, i, _ => by simp [packed]
  | n + 1, i, h => by
    have ih := packed_fields w n (i + 1) (by omega)
    rw [show i + 1 + n = i + (n + 1) by omega, show 3 - (i + 1) = 2 - i by omega] at ih
    rw [List.range'_succ, List.map_cons, packed, Nat.add_assoc, ih, toNat_ofNat_operandField,
      operandField_eq, pow_fields (by omega), Nat.mul_comm 16, Nat.mod_mul, Nat.add_comm,
      Nat.mul_comm (2 ^ _)]

/-- A word that is in use: its top field is an instruction's number, and the bits that this
    instruction has no use for are zero. -/
structure Used (op : Opcode) (w : Word) : Prop where
  top : w.topField = op.code
  spare : op.shape.immediate = false → w.toNat % 2 ^ (12 - 4 * op.shape.registers.toNat) = 0

theorem immediateOf_operands (op : Opcode) (w : Word)
    (hspare : op.shape.immediate = false → w.immediate op = 0) :
    immediateOf op (operands op w) = w.immediate op := by
  rw [immediateOf]
  split
  · rename_i himm
    rw [getLastD_operands himm, toNat_ofNat_immediate]
  · rename_i himm
    rw [hspare (Bool.eq_false_iff.2 himm)]

/-- A word is the word of what it holds, unless there is more in it. -/
theorem Used.encode (h : Used op w) : Word.encode op (operands op w) = .ok w := by
  refine encode_eq_ok_iff.2 ⟨fits_operands op w, ?_⟩
  have hle := op.registers_le
  have hlow := packed_fields w op.shape.registers.toNat 0 (by omega)
  have himm := immediateOf_operands op w (immediate_eq op w ▸ h.spare)
  have htop := h.top
  rw [← List.range_eq_range', Nat.zero_add, ← op.immediateWidth_toNat] at hlow
  rw [topField, Nat.shiftRight_eq_div_pow, fieldBits, operandFields] at htop
  rw [number, take_operands, himm, ← htop, Nat.add_assoc, fields, immediate, hlow]
  exact (Nat.div_add_mod' _ _).symm

/-! ### Decoding -/

theorem mod_spareBits_eq_zero_iff : w.toNat % 1 <<< spareBits op = 0 ↔
    (op.shape.immediate = false → w.toNat % 2 ^ (12 - 4 * op.shape.registers.toNat) = 0) := by
  rw [spareBits, Nat.one_shiftLeft]
  cases op.shape.immediate with
  | true => simp [Nat.mod_one]
  | false => simp [op.immediateWidth_eq]

theorem decode?_eq_some_iff :
    decode? w = some (op, args) ↔ Used op w ∧ operands op w = args := by
  simp only [decode?, Option.bind_eq_bind, Option.bind_eq_some_iff, Opcode.ofCode?_eq_some_iff,
    mod_spareBits_eq_zero_iff, Option.ite_none_right_eq_some, Option.some.injEq, Prod.mk.injEq]
  constructor
  · rintro ⟨op, htop, hspare, rfl, hargs⟩
    exact ⟨⟨htop, hspare⟩, hargs⟩
  · rintro ⟨⟨htop, hspare⟩, hargs⟩
    exact ⟨op, htop, hspare, rfl, hargs⟩

theorem used_of_encode (h : encode op args = .ok w) : Used op w := by
  refine ⟨topField_of_encode h, fun himm => ?_⟩
  have hlow := mod_immediateWidth_of_encode h
  rwa [op.immediateWidth_eq, immediateOf, himm] at hlow

/-- A word decodes to exactly what it is the word of. -/
theorem decode?_eq_some_iff_encode : decode? w = some (op, args) ↔ encode op args = .ok w := by
  rw [decode?_eq_some_iff]
  constructor
  · rintro ⟨hused, rfl⟩
    exact hused.encode
  · intro h
    exact ⟨used_of_encode h, operands_of_encode h⟩

/-! ### The places of the operands -/

/-- What stands where in the word of an instruction with its operands. -/
structure Laid (op : Opcode) (args : List Operand) (w : Word) : Prop where
  /-- the instruction's number in the top four bits -/
  top : w.topField = op.code
  /-- register `i` in the four bits from `4 * (2 - i)` on -/
  register : ∀ i < op.shape.registers.toNat,
    w.toNat / 2 ^ (4 * (2 - i)) % 16 = (args.getD i 0).toNat
  /-- the immediate in the bits that the registers leave, and zero if there is none -/
  low : w.toNat % 2 ^ (12 - 4 * op.shape.registers.toNat) =
    if op.shape.immediate then (args.getLastD 0).toNat else 0

theorem laid_of_encode (h : encode op args = .ok w) : Laid op args w where
  top := topField_of_encode h
  register i hi := by
    have htake : i < (args.take op.shape.registers.toNat).length := by
      rwa [(encode_eq_ok_iff.1 h).1.length_take]
    have hargs : i < args.length := Nat.lt_of_lt_of_le htake (List.length_take_le' _ _)
    rw [← operandField_eq, operandField_of_encode h htake, List.getElem_take,
      List.getD_eq_getElem _ _ hargs]
  low := by
    rw [← op.immediateWidth_eq, mod_immediateWidth_of_encode h, immediateOf]

/-- The places of the operands make up the whole word, so that it holds nothing else. -/
theorem Laid.operands (h : Laid op args w) (hfits : Fits op args) : operands op w = args := by
  have hregisters : w.fields op.shape.registers.toNat = args.take op.shape.registers.toNat := by
    refine List.ext_getElem (by rw [length_fields, hfits.length_take]) fun i hi htake => ?_
    have hargs : i < args.length := Nat.lt_of_lt_of_le htake (List.length_take_le' _ _)
    rw [length_fields] at hi
    simp only [fields, List.getElem_map, List.getElem_range, List.getElem_take]
    rw [← UInt32.toNat_inj, toNat_ofNat_operandField, operandField_eq, h.register i hi,
      List.getD_eq_getElem _ _ hargs]
  rw [operands_eq, hregisters]
  conv_rhs => rw [hfits.args_eq]
  split
  · rename_i himm
    have hlow := h.low
    rw [if_pos himm] at hlow
    rw [immediate_eq, hlow, UInt32.ofNat_toNat]
  · rfl

/-- Operands that fit have the one word that they are laid out in. -/
theorem encode_eq_ok_iff_laid : encode op args = .ok w ↔ Fits op args ∧ Laid op args w := by
  constructor
  · intro h
    exact ⟨(encode_eq_ok_iff.1 h).1, laid_of_encode h⟩
  · rintro ⟨hfits, hlaid⟩
    have hused : Used op w := ⟨hlaid.top, fun himm => by rw [hlaid.low, himm]; rfl⟩
    rw [← hlaid.operands hfits]
    exact hused.encode

/-! ### Operands without a word -/

/-- Why operands have no word: their number, or else the first register that is too wide for a
    field, or else the immediate. -/
inductive Unfit (op : Opcode) (args : List Operand) : Cause → Prop
  | count (h : args.length ≠ op.shape.count.toNat) : Unfit op args (.incomplete op)
  | register {r : Operand} (hcount : args.length = op.shape.count.toNat)
      (hr : (args.take op.shape.registers.toNat).find? (15 < ·.toNat) = some r) :
      Unfit op args (.wideRegister op r)
  | immediate (hcount : args.length = op.shape.count.toNat)
      (hregister : ∀ r ∈ args.take op.shape.registers.toNat, r.toNat ≤ 15)
      (himm : op.shape.immediate = true)
      (hwide : 2 ^ (12 - 4 * op.shape.registers.toNat) ≤ (args.getLastD 0).toNat) :
      Unfit op args (.wideImmediate op (args.getLastD 0))

/-- Registers are turned down for the first that is too wide. -/
theorem packRegisters_eq_error_iff : ∀ {rs : List Operand} {i : Nat},
    packRegisters op i rs = .error c ↔
      ∃ r, rs.find? (15 < ·.toNat) = some r ∧ c = .wideRegister op r
  | [], i => by simp [packRegisters]
  | r :: rs, i => by
    rw [packRegisters]
    split
    · rename_i hr
      have hr' : ¬ 15 < r.toNat := Nat.not_lt.2 (Nat.le_of_lt_succ hr)
      rw [bind_eq_error_iff, packRegisters_eq_error_iff,
        List.find?_cons_of_neg (by simpa using hr')]
      simp [pure, Except.pure]
    · rename_i hr
      have hr' : 15 < r.toNat := Nat.lt_of_succ_le (Nat.not_lt.1 hr)
      rw [List.find?_cons_of_pos (by simpa using hr')]
      simp [eq_comm]

theorem packImmediate_eq_error_iff : packImmediate op args = .error c ↔
    op.shape.immediate = true ∧
      2 ^ (12 - 4 * op.shape.registers.toNat) ≤ (args.getLastD 0).toNat ∧
      c = .wideImmediate op (args.getLastD 0) := by
  rw [packImmediate, op.immediateWidth_eq, Nat.one_shiftLeft]
  cases op.shape.immediate with
  | false => simp
  | true =>
    simp only [if_true, true_and]
    split
    · rename_i hlt
      simp only [reduceCtorEq, Nat.not_le.2 hlt, false_and]
    · rename_i hlt
      simp only [Except.error.injEq, Nat.not_lt.1 hlt, true_and, eq_comm]

theorem encode_eq_error_iff : encode op args = .error c ↔ Unfit op args c := by
  rw [encode_eq]
  split
  · rename_i hcount
    simp only [bind_eq_error_iff, packRegisters_eq_error_iff, packRegisters_eq_ok_iff,
      packImmediate_eq_error_iff]
    constructor
    · rintro (⟨r, hr, rfl⟩ | ⟨_, ⟨hregister, -⟩, ⟨himm, hwide, rfl⟩ | ⟨_, -, h⟩⟩)
      · exact .register hcount hr
      · exact .immediate hcount hregister himm hwide
      · simp [pure, Except.pure] at h
    · intro h
      cases h with
      | count h => exact absurd hcount h
      | register _ hr => exact Or.inl ⟨_, hr, rfl⟩
      | immediate _ hregister himm hwide =>
        exact Or.inr ⟨_, ⟨hregister, rfl⟩, Or.inl ⟨himm, hwide, rfl⟩⟩
  · rename_i hcount
    constructor
    · intro h
      rw [← Except.error.inj h]
      exact .count hcount
    · intro h
      cases h with
      | count _ => rfl
      | register h _ => exact absurd h hcount
      | immediate h _ _ _ => exact absurd h hcount

/-- Encoding is a bijection from the operands that fit onto the words that have nothing set outside
    the fields of their instruction, and decoding is its inverse. Operands that do not fit are
    turned down for their number, the first register that is too wide, or the immediate. -/
theorem encode_is_bijection (op : Opcode) (args : List Operand) (w : Word) :
    ((∃ w, encode op args = .ok w) ↔ Fits op args) ∧
    (encode op args = .ok w ↔ Fits op args ∧ Laid op args w) ∧
    (encode op args = .ok w ↔ Fits op args ∧ w.toNat = number op args) ∧
    (decode? w = some (op, args) ↔ encode op args = .ok w) ∧
    ((∃ op args, decode? w = some (op, args)) ↔ ∃ op, Used op w) ∧
    ∀ c, encode op args = .error c ↔ Unfit op args c := by
  refine ⟨?_, encode_eq_ok_iff_laid, encode_eq_ok_iff, decode?_eq_some_iff_encode, ?_,
    fun c => encode_eq_error_iff⟩
  · constructor
    · rintro ⟨w, hw⟩
      exact (encode_eq_ok_iff.1 hw).1
    · intro h
      exact ⟨_, encode_eq_ok_iff.2 ⟨h, UInt16.toNat_ofNat_of_lt' h.number_lt⟩⟩
  · simp only [decode?_eq_some_iff]
    constructor
    · rintro ⟨op, args, hused, -⟩
      exact ⟨op, hused⟩
    · rintro ⟨op, hused⟩
      exact ⟨op, _, hused, rfl⟩

end NibbleMachine.Word
