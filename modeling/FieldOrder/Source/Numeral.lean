import FieldOrder.Text.Unsigned

/-!
Integer literals: decimal, `0x`, `0o` and `0b`, octal after a plain leading zero, either case, and
underscores anywhere.
-/
namespace FieldOrder.Source
open Text

/-- The value of an integer literal, if it is one and fits in 64 bits. -/
def integer? (text : String) : Option Nat :=
  match (text.toList.filter (· != '_')).map Char.toLower with
  | '0' :: 'x' :: ds => unsigned? 16 ds
  | '0' :: 'o' :: ds => unsigned? 8 ds
  | '0' :: 'b' :: ds => unsigned? 2 ds
  | '0' :: d :: ds => unsigned? 8 (d :: ds)
  | ds => unsigned? 10 ds

end FieldOrder.Source
