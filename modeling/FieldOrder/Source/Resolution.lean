import FieldOrder.Shape
import FieldOrder.Source.Declaration

/-!
What written types stand for. A name is looked for among the local types, the type parameters, the
package and the predeclared types, in this order. What cannot be pinned down is unresolved and says
why; nothing is guessed.
-/
namespace FieldOrder.Source

inductive Obstacle where
  | tooDeep
  | unknownLength (text : String)
  | foreign (package name : String)
  | withArguments (name : String)
  | typeParameter (name : String)
  | withoutArguments (name : String)
  | recursive (name : String)
  | undeclared (name : String)
deriving DecidableEq, Repr

def Obstacle.text : Obstacle → String
  | tooDeep => "type nested too deeply"
  | unknownLength text => "array length " ++ text
  | foreign package name => package ++ "." ++ name
  | withArguments name => name ++ "[...]"
  | typeParameter name => "type parameter " ++ name
  | withoutArguments name => name ++ " without type arguments"
  | recursive name => "invalid recursive type " ++ name
  | undeclared name => name

def Obstacle.shape (o : Obstacle) : Shape := .unresolved o.text

/-- A declaration, told from others of its name by where it stands. A local type is known by the
number of local types declared before it. -/
inductive DeclId where
  | package (name : String)
  | block (before : Nat)
deriving DecidableEq, Repr

inductive Binding where
  /-- A declaration, and the scope of its right-hand side. -/
  | declared (id : DeclId) (decl : TypeDecl) (scope : Scope)
  | parameter
  | predeclared (shape : Shape)
  | undeclared

/-- The declarations of a package, the newest first, and the width of a plain integer. -/
structure Env where
  decls : List TypeDecl
  intWidth : IntWidth

namespace Env

def predeclared? (env : Env) : String → Option Shape
  | "bool" => some (.scalar .bool)
  | "int8" => some (.scalar (.int .w8))
  | "int16" => some (.scalar (.int .w16))
  | "int32" | "rune" => some (.scalar (.int .w32))
  | "int64" => some (.scalar (.int .w64))
  | "int" => some (.scalar (.int env.intWidth))
  | "uint8" | "byte" => some (.scalar (.uint .w8))
  | "uint16" => some (.scalar (.uint .w16))
  | "uint32" => some (.scalar (.uint .w32))
  | "uint64" => some (.scalar (.uint .w64))
  | "uint" | "uintptr" => some (.scalar (.uint env.intWidth))
  | "float32" => some (.scalar .float32)
  | "float64" => some (.scalar .float64)
  | "complex64" => some (.scalar .complex64)
  | "complex128" => some (.scalar .complex128)
  | "string" => some .string
  | "error" | "any" => some .interface
  | _ => none

/-- Looks a name up, innermost scope first. A local type sees itself and the local types declared
before it. -/
def lookup (env : Env) (scope : Scope) (name : String) : Binding :=
  match scope.locals.dropWhile (·.name != name) with
  | decl :: before => .declared (.block before.length) decl ⟨scope.parameters, decl :: before⟩
  | [] =>
    if scope.parameters.contains name then .parameter
    else match env.decls.find? (·.name == name) with
      | some decl => .declared (.package name) decl .package
      | none =>
        match env.predeclared? name with
        | some shape => .predeclared shape
        | none => .undeclared

def depthLimit : Nat := 256

/-- What a written type stands for. `depth` is how much deeper types may still be nested, and
`visiting` are the declarations whose right-hand sides this one stands in. -/
def resolve (env : Env) : (depth : Nat) → Scope → (visiting : List DeclId) → WrittenType → Shape
  | 0, _, _, _ => Obstacle.tooDeep.shape
  | depth + 1, scope, visiting, type =>
    match type with
    | .reference => .pointer
    | .slice => .slice
    | .interface => .interface
    | .array (.known n) elem => .array (env.resolve depth scope visiting elem) n
    | .array (.unknown text) _ => (Obstacle.unknownLength text).shape
    | .struct fields =>
      .ofFields (fields.map fun f => (f.name, env.resolve depth scope visiting f.type))
    | .named (some "unsafe") "Pointer" false => .pointer
    | .named (some package) name false => (Obstacle.foreign package name).shape
    | .named (some package) name true => (Obstacle.withArguments (package ++ "." ++ name)).shape
    | .named none name true => (Obstacle.withArguments name).shape
    | .named none name false =>
      match env.lookup scope name with
      | .declared id decl inner =>
        if decl.generic then (Obstacle.withoutArguments name).shape
        else if id ∈ visiting then (Obstacle.recursive name).shape
        else env.resolve depth inner (id :: visiting) decl.type
      | .parameter => (Obstacle.typeParameter name).shape
      | .predeclared shape => shape
      | .undeclared => (Obstacle.undeclared name).shape

def resolveStruct (env : Env) (scope : Scope) (fields : List (FieldDecl WrittenType)) : Shape :=
  .ofFields (fields.map fun f => (f.name, env.resolve depthLimit scope [] f.type))

end Env

end FieldOrder.Source
