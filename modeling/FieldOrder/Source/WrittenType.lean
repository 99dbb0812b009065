/-!
Types as they are written, before any name is looked up. What a reference points to is not kept,
so a struct may point to itself.
-/
namespace FieldOrder.Source

inductive ArrayLength where
  | known (n : Nat)
  /-- An expression, kept as it stands. -/
  | unknown (text : String)
deriving DecidableEq, Repr

structure FieldDecl (τ : Type) where
  name : String
  type : τ
deriving Repr

inductive WrittenType where
  | named (package : Option String) (name : String) (withArguments : Bool)
  /-- A pointer, map, channel or function. -/
  | reference
  | slice
  | interface
  | array (length : ArrayLength) (elem : WrittenType)
  | struct (fields : List (FieldDecl WrittenType))
deriving Inhabited

end FieldOrder.Source
