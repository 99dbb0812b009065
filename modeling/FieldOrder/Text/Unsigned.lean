/-!
Unsigned 64-bit numbers in text.
-/
namespace FieldOrder.Text

/-- The value of a digit, small letters standing for ten and up. -/
def digit? (radix : Nat) (c : Char) : Option Nat :=
  let value? :=
    if c.isDigit then some (c.toNat - '0'.toNat)
    else if c.isLower then some (c.toNat - 'a'.toNat + 10)
    else none
  value?.filter (· < radix)

def digits? (radix : Nat) (cs : List Char) : Option Nat :=
  cs.foldlM (fun n c => (digit? radix c).map (n * radix + ·)) 0

/-- The value of at least one digit, after a plus sign or without, if it fits in 64 bits. -/
def unsigned? (radix : Nat) (cs : List Char) : Option Nat :=
  let ds := if cs.head? = some '+' then cs.tail else cs
  if ds.isEmpty then none else (digits? radix ds).filter (· < UInt64.size)

end FieldOrder.Text
