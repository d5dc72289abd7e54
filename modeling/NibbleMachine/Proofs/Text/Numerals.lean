import Mathlib.Algebra.Group.Nat.Defs
import NibbleMachine.Proofs.Text.Cuts
import NibbleMachine.Text.Numeral

/-!
Numerals are read back. `spelled` gives the number that a row of digits stands for, leading zeros
or not; a number that is written out spells itself, in either base and either case. A decimal
numeral ends where its digits do, so it can be told from what follows it, also with a sign.
-/

namespace NibbleMachine

namespace Radix

theorem base_le (r : Radix) : r.base ≤ 16 := by cases r <;> decide

theorem digits_ne_nil (r : Radix) (n : Nat) : r.digits n ≠ [] := by
  rw [digits]
  split <;> simp

theorem digits_lt (r : Radix) (n : Nat) : ∀ d ∈ r.digits n, d < r.base := by
  induction n using digits.induct r with
  | case1 n h =>
    intro d hd
    rw [digits, if_pos h] at hd
    rwa [List.mem_singleton.1 hd]
  | case2 n h ih =>
    intro d hd
    rw [digits, if_neg h] at hd
    rcases List.mem_append.1 hd with hd | hd
    · exact ih d hd
    · rw [List.mem_singleton.1 hd]
      exact Nat.mod_lt n (Nat.zero_lt_of_lt r.one_lt_base)

/-- A number below the `k`-th power of the base has at most `k` digits. -/
theorem digits_length_le (r : Radix) : ∀ (k n : Nat), n < r.base ^ (k + 1) →
    (r.digits n).length ≤ k + 1
  | 0, n, h => by
    rw [digits, if_pos (by simpa using h)]
    simp
  | k + 1, n, h => by
    rw [digits]
    split
    · simp
    · have hdiv : n / r.base < r.base ^ (k + 1) :=
        Nat.div_lt_of_lt_mul (by rwa [Nat.mul_comm, ← Nat.pow_succ])
      have := digits_length_le r k (n / r.base) hdiv
      simp only [List.length_append, List.length_singleton]
      omega

end Radix

namespace Text

/-! ### The number that digits spell -/

/-- The number that a digit stands for; letters count on from ten. -/
def digitNumber (b : UInt8) : Nat :=
  if b ≤ 57 then b.toNat - 48 else if b ≤ 70 then b.toNat - 55 else b.toNat - 87

/-- The number that a row of digits spells after the number `n`. -/
def spelledFrom (r : Radix) (n : Nat) (t : Text) : Nat :=
  t.foldl (fun n b => r.base * n + digitNumber b) n

/-- The number that a row of digits spells. -/
def spelled (r : Radix) (t : Text) : Nat := spelledFrom r 0 t

@[simp] theorem spelledFrom_nil (r : Radix) (n : Nat) : spelledFrom r n [] = n := rfl

@[simp] theorem spelledFrom_cons (r : Radix) (n : Nat) (b : UInt8) (t : Text) :
    spelledFrom r n (b :: t) = spelledFrom r (r.base * n + digitNumber b) t := rfl

theorem spelledFrom_append (r : Radix) (n : Nat) (t u : Text) :
    spelledFrom r n (t ++ u) = spelledFrom r (spelledFrom r n t) u := List.foldl_append

/-- More digits never make a number smaller. -/
theorem le_spelledFrom (r : Radix) : ∀ (t : Text) (n : Nat), n ≤ spelledFrom r n t
  | [], n => Nat.le_refl n
  | b :: t, n => by
    have hb : n ≤ r.base * n := Nat.le_mul_of_pos_left n (Nat.zero_lt_of_lt r.one_lt_base)
    exact Nat.le_trans (by omega) (le_spelledFrom r t (r.base * n + digitNumber b))

theorem spelledFrom_replicate_zero (r : Radix) : ∀ k : Nat,
    spelledFrom r 0 (List.replicate k 48) = 0
  | 0 => rfl
  | k + 1 => spelledFrom_replicate_zero r k

/-- Zeros in front do not change the number. -/
theorem spelled_leftpad (r : Radix) (k : Nat) (t : Text) :
    spelled r (t.leftpad k 48) = spelled r t := by
  rw [List.leftpad, spelled, spelledFrom_append, spelledFrom_replicate_zero, spelled]

/-! ### Numbers written out -/

theorem digitNumber_digitByte (capitals : Bool) : ∀ d < 16,
    digitNumber (digitByte capitals d) = d := by
  cases capitals <;> decide

/-- A number that is written out spells itself. -/
theorem spelled_numeral (r : Radix) (capitals : Bool) (n : Nat) :
    spelled r (numeral r capitals n) = n := by
  have hbyte : ∀ d < r.base, digitNumber (digitByte capitals d) = d := fun d hd =>
    digitNumber_digitByte capitals d (Nat.lt_of_lt_of_le hd r.base_le)
  rw [numeral]
  induction n using Radix.digits.induct r with
  | case1 n h =>
    rw [Radix.digits, if_pos h]
    simp [spelled, hbyte n h]
  | case2 n h ih =>
    have hlast := hbyte (n % r.base) (Nat.mod_lt n (Nat.zero_lt_of_lt r.one_lt_base))
    rw [Radix.digits, if_neg h, List.map_append, spelled, spelledFrom_append, ← spelled, ih]
    simp only [List.map_cons, List.map_nil, spelledFrom_cons, spelledFrom_nil, hlast]
    exact Nat.div_add_mod n r.base

/-- A byte that is no digit is not in a numeral. -/
theorem notMem_numeral (r : Radix) (capitals : Bool) {b : UInt8}
    (hb : ∀ d < 16, digitByte capitals d ≠ b) (n : Nat) : b ∉ numeral r capitals n := by
  intro h
  obtain ⟨d, hd, hbyte⟩ := List.mem_map.1 h
  exact hb d (Nat.lt_of_lt_of_le (r.digits_lt n d hd) r.base_le) hbyte

/-! ### Decimal numerals -/

/-- `t` is a decimal numeral for `n`: at least one digit, and leading zeros are allowed. -/
structure Numeral (t : Text) (n : Nat) : Prop where
  ne_nil : t ≠ []
  digit : ∀ b ∈ t, isDigit b = true
  spelled : spelled .decimal t = n

theorem isDigit_digitByte : ∀ d < 10, isDigit (digitByte false d) = true := by decide

theorem digitNumber_of_isDigit {b : UInt8} (h : isDigit b = true) :
    digitNumber b = b.toNat - 48 := by
  simp only [isDigit, Bool.and_eq_true, decide_eq_true_eq] at h
  rw [digitNumber, if_pos h.2]

theorem numeral_decimal (n : Nat) : Numeral (decimal n) n := by
  refine ⟨?_, ?_, spelled_numeral .decimal false n⟩
  · simpa [decimal, numeral] using Radix.digits_ne_nil .decimal n
  · intro b hb
    obtain ⟨d, hd, rfl⟩ := List.mem_map.1 hb
    exact isDigit_digitByte d (Radix.digits_lt .decimal n d hd)

theorem notMem_decimal {b : UInt8} (hb : isDigit b = false) (n : Nat) : b ∉ decimal n := by
  intro h
  rw [(numeral_decimal n).digit b h] at hb
  contradiction

/-! ### Numerals in front of a text -/

/-- A number is told by its numeral, if no further digit follows. -/
theorem decimal_append_inj {m n : Nat} {t u : Text} (ht : Stops isDigit t) (hu : Stops isDigit u)
    (h : decimal m ++ t = decimal n ++ u) : m = n := by
  have hdigits : decimal m = decimal n := by
    rw [← takeWhile_run (numeral_decimal m).digit ht, h, takeWhile_run (numeral_decimal n).digit hu]
  rw [← (numeral_decimal m).spelled, hdigits, (numeral_decimal n).spelled]

/-- No numeral starts with a minus sign. -/
theorem minus_cons_ne_decimal (n : Nat) (t u : Text) : 45 :: t ≠ decimal n ++ u := by
  intro h
  obtain ⟨b, ds, hds⟩ := List.exists_cons_of_ne_nil (numeral_decimal n).ne_nil
  have hb : isDigit b = true := (numeral_decimal n).digit b (by simp [hds])
  rw [hds] at h
  rw [← (List.cons.inj h).1] at hb
  exact absurd hb (by decide)

theorem signed_append_inj {i j : Int} {t u : Text} (ht : Stops isDigit t) (hu : Stops isDigit u)
    (h : signed i ++ t = signed j ++ u) : i = j := by
  rw [signed, signed] at h
  split at h <;> split at h
  · have habs := decimal_append_inj ht hu (List.cons.inj h).2
    omega
  · exact absurd h (minus_cons_ne_decimal _ _ _)
  · exact absurd h.symm (minus_cons_ne_decimal _ _ _)
  · have habs := decimal_append_inj ht hu h
    omega

theorem notMem_signed {b : UInt8} (hb : isDigit b = false) (hminus : b ≠ 45) (i : Int) :
    b ∉ signed i := by
  rw [signed]
  split
  · simp [hminus, notMem_decimal hb]
  · exact notMem_decimal hb _

end Text

end NibbleMachine
