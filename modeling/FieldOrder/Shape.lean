import FieldOrder.Target

/-!
The shape of a type: what its layout in memory depends on, and nothing else. What a reference points
to is not part of it.
-/
namespace FieldOrder

inductive IntWidth where
  | w8 | w16 | w32 | w64
deriving DecidableEq, Repr

namespace IntWidth

def bytes : IntWidth → Nat
  | w8 => 1
  | w16 => 2
  | w32 => 4
  | w64 => 8

def bits (w : IntWidth) : Nat := 8 * w.bytes

end IntWidth

/-- The width of a plain integer: a word, but never more than eight bytes. -/
def Target.intWidth (t : Target) : IntWidth :=
  match t.word with
  | 1 => .w8
  | 2 => .w16
  | 4 => .w32
  | _ => .w64

inductive Scalar where
  | bool
  | int (width : IntWidth)
  | uint (width : IntWidth)
  | float32
  | float64
  | complex64
  | complex128
deriving DecidableEq, Repr

namespace Scalar

def size : Scalar → Nat
  | bool => 1
  | int w | uint w => w.bytes
  | float32 => 4
  | float64 => 8
  | complex64 => 8
  | complex128 => 16

def text : Scalar → String
  | bool => "bool"
  | int w => "int" ++ w.bits.repr
  | uint w => "uint" ++ w.bits.repr
  | float32 => "float32"
  | float64 => "float64"
  | complex64 => "complex64"
  | complex128 => "complex128"

end Scalar

/-- A struct field. The index is its place in the declaration; layout does not depend on it, but it
settles ties between fields that are otherwise alike. -/
structure Field (τ : Type) where
  name : String
  type : τ
  index : Nat
deriving Repr

inductive Shape where
  | scalar (kind : Scalar)
  | string
  | array (elem : Shape) (length : Nat)
  | slice
  | pointer
  | interface
  | struct (fields : List (Field Shape))
  | unresolved (name : String)
deriving Inhabited

namespace Shape

def ofFields (fields : List (String × Shape)) : Shape :=
  .struct (fields.zipIdx.map fun ((name, type), i) => ⟨name, type, i⟩)

def kind : Shape → String
  | scalar _ => "scalar"
  | string => "string"
  | array .. => "array"
  | slice => "slice"
  | pointer => "pointer"
  | interface => "interface"
  | struct _ => "struct"
  | unresolved _ => "unresolved type"

mutual

def text : Shape → String
  | scalar k => k.text
  | string => "string"
  | array elem length => "[" ++ length.repr ++ "]" ++ elem.text
  | slice => "[]_"
  | pointer => "*_"
  | interface => "interface\x7b\x7d"
  | struct fields => "struct\x7b" ++ fieldsText fields ++ "\x7d"
  | unresolved name => "?" ++ name

def fieldsText : List (Field Shape) → String
  | [] => ""
  | f :: fs => fieldText f ++ moreText fs

def moreText : List (Field Shape) → String
  | [] => ""
  | f :: fs => "; " ++ fieldText f ++ moreText fs

def fieldText : Field Shape → String
  | ⟨name, type, _⟩ => name ++ " " ++ type.text

end

end Shape

end FieldOrder
