import NibbleMachine.Instruction.Operation

/-!
Writing numbers and texts under settings that stay in force until they are changed: the base, the
case of digits, the side that is padded, what it is padded with. Only the width is used up by the
next thing written.
-/

namespace NibbleMachine

/-- The side of its field that something stands on. -/
inductive Align where
  | left
  | right
  deriving DecidableEq, Repr

/-- The settings in force. The usual ones are base ten, small letters, no width, and spaces to the
    left of what is narrower than its field. -/
structure Style where
  radix : Radix := .decimal
  capitals : Bool := false
  align : Align := .right
  fill : UInt8 := Text.space
  width : Nat := 0
  deriving DecidableEq, Repr

/-- Something to write, or a setting to change. -/
inductive Item where
  | text (t : Text)
  | number (n : Nat)
  | value (v : Value)
  | radix (r : Radix)
  | capitals (on : Bool)
  | align (a : Align)
  | fill (b : UInt8)
  | width (n : Nat)
  deriving DecidableEq, Repr

namespace Style

open Text

/-- A text in its field. -/
def pad (s : Style) (t : Text) : Text :=
  match s.align with
  | .left => t.rightpad s.width s.fill
  | .right => t.leftpad s.width s.fill

/-- A value in the base in force. In base sixteen it is written as the 64 bits that hold it. -/
def valueText (s : Style) (v : Value) : Text :=
  match s.radix with
  | .decimal => signed v.toInt
  | .hexadecimal => numeral .hexadecimal s.capitals v.toUInt64.toNat

/-- The settings after an item, and the text that it adds. -/
def put (s : Style) : Item → Style × Text
  | .text t => ({ s with width := 0 }, s.pad t)
  | .number n => ({ s with width := 0 }, s.pad (numeral s.radix s.capitals n))
  | .value v => ({ s with width := 0 }, s.pad (s.valueText v))
  | .radix r => ({ s with radix := r }, [])
  | .capitals on => ({ s with capitals := on }, [])
  | .align a => ({ s with align := a }, [])
  | .fill b => ({ s with fill := b }, [])
  | .width n => ({ s with width := n }, [])

/-- One item more, with the texts written so far, the last one first. -/
def putOnto (sofar : Style × List Text) (i : Item) : Style × List Text :=
  let (s, t) := sofar.1.put i
  (s, t :: sofar.2)

/-- The settings after a row of items, and the text that they add. -/
def write (s : Style) (items : List Item) : Style × Text :=
  let (s, texts) := items.foldl putOnto (s, [])
  (s, texts.reverse.flatten)

/-! ### Writing item by item -/

theorem foldl_putOnto : ∀ (items : List Item) (s : Style) (texts : List Text),
    items.foldl putOnto (s, texts) =
      ((items.foldl putOnto (s, [])).1, (items.foldl putOnto (s, [])).2 ++ texts)
  | [], _, _ => rfl
  | i :: items, s, texts => by
    rw [List.foldl_cons, List.foldl_cons, putOnto, putOnto,
      foldl_putOnto items (s.put i).1 ((s.put i).2 :: texts),
      foldl_putOnto items (s.put i).1 [(s.put i).2]]
    simp

@[simp] theorem write_nil (s : Style) : s.write [] = (s, []) := rfl

/-- The first item adds its text, and the rest is written under the settings that it leaves. -/
@[simp] theorem write_cons (s : Style) (i : Item) (items : List Item) :
    s.write (i :: items) =
      (((s.put i).1.write items).1, (s.put i).2 ++ ((s.put i).1.write items).2) := by
  simp only [write, List.foldl_cons, putOnto]
  rw [foldl_putOnto items (s.put i).1 [(s.put i).2]]
  simp

end Style

end NibbleMachine
