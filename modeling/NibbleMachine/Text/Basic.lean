/-!
Texts are lists of bytes, because sources, paths and printed output may hold any byte at all.
This module has the byte classes the assembler needs (blank, digit, alphanumeric; ASCII only) and
the cuts it makes: comments off, blanks off both ends, a text into its lines.
-/

namespace NibbleMachine

/-- A text is the list of its bytes. -/
abbrev Text := List UInt8

namespace Text

/-- The UTF-8 bytes of a string. -/
def utf8 (s : String) : Text := s.toList.flatMap String.utf8EncodeChar

/-! ### Bytes -/

/-- The byte that ends a line. -/
def newline : UInt8 := 10

/-- The only byte that separates operands. -/
def space : UInt8 := 32

/-- The byte `#`, which opens a comment. -/
def hash : UInt8 := 35

/-- The six ASCII blanks: tab, newline, vertical tab, form feed, carriage return and space. -/
def isBlank (b : UInt8) : Bool := (9 ≤ b && b ≤ 13) || b == 32

/-- The ten ASCII digits. -/
def isDigit (b : UInt8) : Bool := 48 ≤ b && b ≤ 57

/-- ASCII letters and digits. -/
def isAlnum (b : UInt8) : Bool := isDigit b || (65 ≤ b && b ≤ 90) || (97 ≤ b && b ≤ 122)

/-! ### Cuts -/

/-- A text without the blanks at its two ends. -/
def trim (t : Text) : Text := ((t.dropWhile isBlank).reverse.dropWhile isBlank).reverse

/-- A line up to its first `#`. -/
def dropComment (t : Text) : Text := t.takeWhile (· != hash)

/-- A text up to its first zero byte, which is all of a message that its reader gets to see. -/
def untilNul (t : Text) : Text := t.takeWhile (· != 0)

/-- Puts one more byte in front of a text that is already cut into lines. -/
def consLine (b : UInt8) (ls : List Text) : List Text :=
  if b == newline then [] :: ls
  else match ls with
    | [] => [[b]]
    | l :: ls => (b :: l) :: ls

/-- The lines of a text. A newline ends a line and opens none, so a text that ends in a newline has
    no empty line after it, and the empty text has no line. -/
def lines (t : Text) : List Text := t.foldr consLine []

@[simp] theorem lines_nil : lines [] = [] := rfl

theorem lines_cons (b : UInt8) (t : Text) : lines (b :: t) = consLine b (lines t) := rfl

end Text

end NibbleMachine
