import Mathlib.Data.List.Basic
import NibbleMachine.Instruction.Word
import NibbleMachine.Proofs.Text.Numerals

/-!
Hexadecimal texts of a fixed width. Each digit counts by its place, and the digits below a place
never make up for one more at that place. So texts of one width that have the same value are the
same text, and the one that comes first byte by byte has the smaller value. A number is written in
a width exactly if it is below the power of sixteen for that width, and then the text has the
number as its value.
-/

namespace NibbleMachine.Text

/-! ### The value of a text -/

/-- The sixteen digits in order, with capitals from ten on. -/
def capitalDigits : Text := utf8 "0123456789ABCDEF"

/-- A text of capital hexadecimal digits. -/
def IsHex (t : Text) : Prop := ∀ b ∈ t, b ∈ capitalDigits

/-- The value of a text of digits: each digit stands for its place in `capitalDigits` and counts
    sixteen times as much as the same digit one place further to the right. -/
def positional : Text → Nat
  | [] => 0
  | b :: t => capitalDigits.idxOf b * 16 ^ t.length + positional t

theorem isHex_cons {b : UInt8} {t : Text} : IsHex (b :: t) ↔ b ∈ capitalDigits ∧ IsHex t :=
  List.forall_mem_cons

theorem idxOf_lt_sixteen {b : UInt8} (hb : b ∈ capitalDigits) : capitalDigits.idxOf b < 16 :=
  List.idxOf_lt_length_of_mem hb

/-- The digits stand in the order of their bytes. -/
theorem idxOf_lt_idxOf_iff {b c : UInt8} (hb : b ∈ capitalDigits) (hc : c ∈ capitalDigits) :
    capitalDigits.idxOf b < capitalDigits.idxOf c ↔ b < c := by
  have hall : capitalDigits.all (fun b => capitalDigits.all fun c =>
      decide (capitalDigits.idxOf b < capitalDigits.idxOf c) == decide (b < c)) = true := by decide
  have hpair := List.all_eq_true.1 (List.all_eq_true.1 hall b hb) c hc
  simpa using hpair

/-- A text has a value below the power of sixteen for its width. -/
theorem positional_lt : ∀ {t : Text}, IsHex t → positional t < 16 ^ t.length
  | [], _ => by simp [positional]
  | b :: t, h => by
    obtain ⟨hb, ht⟩ := isHex_cons.1 h
    have hdigit := idxOf_lt_sixteen hb
    have hrest := positional_lt ht
    calc capitalDigits.idxOf b * 16 ^ t.length + positional t
      _ < capitalDigits.idxOf b * 16 ^ t.length + 16 ^ t.length := by omega
      _ = (capitalDigits.idxOf b + 1) * 16 ^ t.length := (Nat.succ_mul _ _).symm
      _ ≤ 16 * 16 ^ t.length := Nat.mul_le_mul_right _ hdigit
      _ = 16 ^ (b :: t).length := by rw [List.length_cons, Nat.pow_succ, Nat.mul_comm]

/-- A larger digit at the first place outweighs all that is behind it. -/
theorem positional_cons_lt {b c : UInt8} {t u : Text} (hlen : t.length = u.length) (ht : IsHex t)
    (hbc : capitalDigits.idxOf b < capitalDigits.idxOf c) :
    positional (b :: t) < positional (c :: u) := by
  have hrest := positional_lt ht
  calc positional (b :: t)
    _ = capitalDigits.idxOf b * 16 ^ t.length + positional t := rfl
    _ < (capitalDigits.idxOf b + 1) * 16 ^ t.length := by rw [Nat.succ_mul]; omega
    _ ≤ capitalDigits.idxOf c * 16 ^ u.length := hlen ▸ Nat.mul_le_mul_right _ hbc
    _ ≤ positional (c :: u) := Nat.le_add_right _ _

/-- Texts of one width come in the order of their values. -/
theorem lt_iff_positional_lt : ∀ {t u : Text}, t.length = u.length → IsHex t → IsHex u →
    (t < u ↔ positional t < positional u)
  | [], [], _, _, _ => by simp
  | [], _ :: _, hlen, _, _ => by simp at hlen
  | _ :: _, [], hlen, _, _ => by simp at hlen
  | b :: t, c :: u, hlens, hbt, hcu => by
    obtain ⟨hb, ht⟩ := isHex_cons.1 hbt
    obtain ⟨hc, hu⟩ := isHex_cons.1 hcu
    have hlen : t.length = u.length := by simpa using hlens
    rw [List.cons_lt_cons_iff, ← idxOf_lt_idxOf_iff hb hc]
    rcases Nat.lt_trichotomy (capitalDigits.idxOf b) (capitalDigits.idxOf c) with hlt | heq | hgt
    · exact iff_of_true (Or.inl hlt) (positional_cons_lt hlen ht hlt)
    · have hrest := lt_iff_positional_lt hlen ht hu
      obtain rfl : b = c := (List.idxOf_inj hb).1 heq
      simp [positional, hlen, hrest]
    · have hback := positional_cons_lt hlen.symm hu hgt
      refine iff_of_false ?_ (by omega)
      rintro (hlt | ⟨rfl, -⟩) <;> omega

/-! ### Numbers written out -/

theorem digitNumber_eq_idxOf {b : UInt8} (hb : b ∈ capitalDigits) :
    digitNumber b = capitalDigits.idxOf b := by
  have hall : capitalDigits.all (fun b => digitNumber b == capitalDigits.idxOf b) = true := by
    decide
  simpa using List.all_eq_true.1 hall b hb

/-- Reading digit by digit gives the same value. -/
theorem spelledFrom_eq_positional : ∀ {t : Text} (n : Nat), IsHex t →
    spelledFrom .hexadecimal n t = n * 16 ^ t.length + positional t
  | [], n, _ => by simp [positional]
  | b :: t, n, h => by
    obtain ⟨hb, ht⟩ := isHex_cons.1 h
    rw [spelledFrom_cons, spelledFrom_eq_positional _ ht, digitNumber_eq_idxOf hb, positional,
      List.length_cons, Nat.pow_succ, Nat.add_mul, Radix.base]
    ac_rfl

theorem isHex_numeral (n : Nat) : IsHex (numeral .hexadecimal true n) := by
  have hall : ∀ d < 16, digitByte true d ∈ capitalDigits := by decide
  intro b hb
  obtain ⟨d, hd, rfl⟩ := List.mem_map.1 hb
  exact hall d (Radix.digits_lt .hexadecimal n d hd)

theorem isHex_leftpad {t : Text} (ht : IsHex t) (k : Nat) : IsHex (t.leftpad k 48) := by
  intro b hb
  rcases List.mem_append.1 hb with hb | hb
  · rw [List.eq_of_mem_replicate hb]
    decide
  · exact ht b hb

/-- A number that is written out and filled up with zeros has itself as its value. -/
theorem positional_leftpad_numeral (k n : Nat) :
    positional ((numeral .hexadecimal true n).leftpad k 48) = n := by
  have hread := spelledFrom_eq_positional 0 (isHex_leftpad (isHex_numeral n) k)
  rw [← spelled, spelled_leftpad, spelled_numeral] at hread
  omega

/-! ### Widths -/

theorem padding_of_lt {digits : UInt64} (h : digits.toNat < 2 ^ 31) :
    padding digits = digits.toNat := by
  have hword : digits.toUInt32.toNat = digits.toNat := by
    rw [UInt64.toNat_toUInt32]
    omega
  have hsmall : 2 * digits.toUInt32.toBitVec.toNat < 2 ^ 32 := by
    rw [UInt32.toNat_toBitVec]
    omega
  rw [padding, ← Int32.toInt_toBitVec, UInt32.toBitVec_toInt32,
    BitVec.toInt_eq_toNat_of_lt hsmall, Int.toNat_natCast, UInt32.toNat_toBitVec, hword]

/-- Only below sixteen digits is there a number of 64 bits that is too large. -/
theorem fits_iff (value digits : UInt64) :
    ¬ (digits < 16 ∧ 1 <<< (fieldBits * digits.toNat) ≤ value.toNat) ↔
      value.toNat < 16 ^ digits.toNat := by
  have hpow : 1 <<< (fieldBits * digits.toNat) = 16 ^ digits.toNat := by
    rw [Nat.one_shiftLeft, fieldBits, Nat.pow_mul]
  have hsixteen : digits < 16 ↔ digits.toNat < 16 := UInt64.lt_iff_toNat_lt
  rw [hpow, hsixteen]
  constructor
  · intro hnot
    by_cases hfew : digits.toNat < 16
    · exact Nat.lt_of_not_le fun hle => hnot ⟨hfew, hle⟩
    · calc value.toNat
        _ < 16 ^ 16 := value.toNat_lt
        _ ≤ 16 ^ digits.toNat := Nat.pow_le_pow_right (by decide) (by omega)
  · rintro hlt ⟨-, hle⟩
    omega

theorem hex_eq_ok_iff {value digits : UInt64} {t : Text} : hex value digits = .ok t ↔
    value.toNat < 16 ^ digits.toNat ∧
      t = (numeral .hexadecimal true value.toNat).leftpad (padding digits) 48 := by
  rw [hex, ← fits_iff value digits]
  split
  · rename_i hwide
    simp [hwide]
  · rename_i hfits
    simp [hfits, eq_comm]

theorem hex_eq_error_iff {value digits : UInt64} {c : Cause} : hex value digits = .error c ↔
    ¬ value.toNat < 16 ^ digits.toNat ∧ c = .wideHex value digits := by
  rw [hex, ← fits_iff value digits]
  split
  · rename_i hwide
    simp [hwide, eq_comm]
  · rename_i hfits
    simp [hfits]

/-- What is written in a width of at least one digit has this width. -/
theorem length_of_hex {value digits : UInt64} {t : Text} (hpos : 1 ≤ digits.toNat)
    (hlt : digits.toNat < 2 ^ 31) (h : hex value digits = .ok t) : t.length = digits.toNat := by
  obtain ⟨hvalue, rfl⟩ := hex_eq_ok_iff.1 h
  obtain ⟨k, hk⟩ : ∃ k, digits.toNat = k + 1 := ⟨digits.toNat - 1, by omega⟩
  rw [hk] at hvalue
  have hlen := Radix.digits_length_le .hexadecimal k value.toNat hvalue
  rw [List.length_leftpad, padding_of_lt hlt, numeral, List.length_map]
  omega

theorem isHex_of_hex {value digits : UInt64} {t : Text} (h : hex value digits = .ok t) :
    IsHex t := by
  obtain ⟨-, rfl⟩ := hex_eq_ok_iff.1 h
  exact isHex_leftpad (isHex_numeral _) _

theorem positional_of_hex {value digits : UInt64} {t : Text} (h : hex value digits = .ok t) :
    positional t = value.toNat := by
  obtain ⟨-, rfl⟩ := hex_eq_ok_iff.1 h
  exact positional_leftpad_numeral _ _

/-- Hexadecimal texts have a fixed width and lose nothing. In a width of at least one digit, exactly
    the numbers below the power of sixteen for this width can be written, and the others are turned
    down. What is written has just as many digits, all of them among `0` to `9` and `A` to `F`, and
    the number as its value. So the text tells the number, and texts of one width are ordered byte
    by byte as their numbers are. -/
theorem hex_loses_nothing (digits : UInt64) (hpos : 1 ≤ digits.toNat)
    (hlt : digits.toNat < 2 ^ 31) :
    (∀ value, ((∃ t, hex value digits = .ok t) ↔ value.toNat < 16 ^ digits.toNat) ∧
      (¬ value.toNat < 16 ^ digits.toNat → hex value digits = .error (.wideHex value digits))) ∧
    (∀ value t, hex value digits = .ok t →
      t.length = digits.toNat ∧ (∀ b ∈ t, b ∈ utf8 "0123456789ABCDEF") ∧
        positional t = value.toNat) ∧
    ∀ v w t u, hex v digits = .ok t → hex w digits = .ok u →
      (t = u ↔ v = w) ∧ (t < u ↔ v < w) := by
  refine ⟨fun value => ⟨?_, fun hwide => hex_eq_error_iff.2 ⟨hwide, rfl⟩⟩, fun value t h => ?_, ?_⟩
  · constructor
    · rintro ⟨t, ht⟩
      exact (hex_eq_ok_iff.1 ht).1
    · intro hvalue
      exact ⟨_, hex_eq_ok_iff.2 ⟨hvalue, rfl⟩⟩
  · exact ⟨length_of_hex hpos hlt h, isHex_of_hex h, positional_of_hex h⟩
  · intro v w t u hv hw
    have hlen : t.length = u.length := by
      rw [length_of_hex hpos hlt hv, length_of_hex hpos hlt hw]
    have horder := lt_iff_positional_lt hlen (isHex_of_hex hv) (isHex_of_hex hw)
    rw [positional_of_hex hv, positional_of_hex hw, ← UInt64.lt_iff_toNat_lt] at horder
    refine ⟨⟨?_, ?_⟩, horder⟩
    · rintro rfl
      exact UInt64.toNat_inj.1 ((positional_of_hex hv).symm.trans (positional_of_hex hw))
    · rintro rfl
      exact Except.ok.inj (hv.symm.trans hw)

/-- Fifteen digits are the last width for which there are numbers that are too large. -/
theorem hex_loses_nothing_fifteen :
    hex 0x1000000000000000 15 = .error (.wideHex 0x1000000000000000 15) ∧
      (∃ t, hex 0x0FFFFFFFFFFFFFFF 15 = .ok t ∧ t.length = 15 ∧
        positional t = 0x0FFFFFFFFFFFFFFF) ∧
      utf8 "000000000000009" < utf8 "00000000000000A" := by
  obtain ⟨hfits, hwritten, horder⟩ := hex_loses_nothing 15 (by decide) (by decide)
  obtain ⟨t, ht⟩ := (hfits 0x0FFFFFFFFFFFFFFF).1.2 (by decide)
  obtain ⟨hlen, -, hvalue⟩ := hwritten _ t ht
  refine ⟨(hfits _).2 (by decide), ⟨t, ht, hlen, hvalue⟩, ?_⟩
  exact (horder 9 10 _ _ (by decide +kernel) (by decide +kernel)).2.2 (by decide)

end NibbleMachine.Text
