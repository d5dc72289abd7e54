import NibbleMachine.Text.Basic

/-!
Numerals: a natural number written in base ten or sixteen, without leading zeros, and a signed
number in base ten.
-/

namespace NibbleMachine

/-- The two bases that numbers are written in. -/
inductive Radix where
  | decimal
  | hexadecimal
  deriving DecidableEq, Repr

namespace Radix

/-- The number of digits of the base. -/
def base : Radix → Nat
  | .decimal => 10
  | .hexadecimal => 16

theorem one_lt_base (r : Radix) : 1 < r.base := by cases r <;> decide

/-- The digits of a number, the most significant first; zero has the one digit 0. -/
def digits (r : Radix) (n : Nat) : List Nat :=
  if n < r.base then [n] else r.digits (n / r.base) ++ [n % r.base]
termination_by n
decreasing_by exact Nat.div_lt_self (by have := r.one_lt_base; omega) r.one_lt_base

end Radix

namespace Text

/-- The byte of a digit below sixteen; from ten on these are letters, capitals if asked for. -/
def digitByte (capitals : Bool) (d : Nat) : UInt8 :=
  if d < 10 then UInt8.ofNat (48 + d)
  else if capitals then UInt8.ofNat (55 + d)
  else UInt8.ofNat (87 + d)

/-- A number written in the given base. -/
def numeral (r : Radix) (capitals : Bool) (n : Nat) : Text :=
  (r.digits n).map (digitByte capitals)

/-- A number in base ten. -/
def decimal (n : Nat) : Text := numeral .decimal false n

/-- A signed number in base ten, with a minus sign if it is below zero. -/
def signed (i : Int) : Text :=
  if i < 0 then 45 :: decimal i.natAbs else decimal i.natAbs

end Text

end NibbleMachine
