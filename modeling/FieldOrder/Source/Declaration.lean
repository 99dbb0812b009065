import FieldOrder.Source.Position
import FieldOrder.Source.WrittenType

/-!
Type declarations, struct literals, and the scope that a literal stands in.
-/
namespace FieldOrder.Source

structure TypeDecl where
  name : String
  generic : Bool
  type : WrittenType

/-- A struct type where it is written out. It has the name of the declaration that it is the
whole right-hand side of. -/
structure StructLiteral where
  position : Position
  name : Option String
  fields : List (FieldDecl WrittenType)

/-- The names visible at some place besides those of the package: type parameters, and local types
with the newest first. -/
structure Scope where
  parameters : List String
  locals : List TypeDecl

def Scope.package : Scope := ⟨[], []⟩

structure Site where
  literal : StructLiteral
  scope : Scope

end FieldOrder.Source
