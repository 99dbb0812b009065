import FieldOrder.Source.TypeReader

/-!
The outline of a file: its package, the types it declares, and every struct literal with the names
that are in scope there. The rest of the file is skimmed, keeping track of braces only.
-/
namespace FieldOrder.Source

structure Outline where
  package : String
  decls : List TypeDecl
  sites : List Site

structure TypeSpec where
  name : String
  parameters : List String
  generic : Bool
  type : WrittenType
  literals : List StructLiteral

def TypeSpec.decl (s : TypeSpec) : TypeDecl := ⟨s.name, s.generic, s.type⟩

/-- The declaration of a local type while its right-hand side is being read: it stands for
itself, which makes it recursive. -/
def TypeSpec.itself (s : TypeSpec) : TypeDecl := ⟨s.name, s.generic, .named none s.name false⟩

namespace Reader

/-- `A[T any]` declares parameters, `A [N]T` is an array. -/
def startsParameters : List Token → Bool
  | ⟨.operator .leftBracket, _⟩ :: ⟨.ident _, _⟩ :: ⟨kind, _⟩ :: _ =>
    match kind with
    | .ident _ | .operator .comma | .operator .tilde => true
    | _ => false
  | _ => false

def typeSpec (fuel : Nat) : Reader TypeSpec := do
  let name ← ident
  let generic := startsParameters (← ahead)
  let parameters ← if generic then typeParameters else pure []
  skipIf (.operator .assign)
  let (type, literals) ← collect <|
    if (← peek) = some (.ident "struct") then structType (some name) (fieldList fuel nestingLimit)
    else typeExpr fuel nestingLimit
  skipIf .semicolon
  return ⟨name, parameters, generic, type, literals⟩

def typeSpecs : (fuel : Nat) → Reader (List TypeSpec)
  | 0 => fail .unfinished
  | fuel + 1 => do
    match ← peek with
    | some .semicolon => skip; typeSpecs fuel
    | some (.operator .rightParen) => skip; return []
    | none => fail .endInTypeDeclaration
    | some _ =>
      let spec ← typeSpec fuel
      return spec :: (← typeSpecs fuel)

def typeDecls (fuel : Nat) : Reader (List TypeSpec) := do
  if (← peek) = some (.operator .leftParen) then
    skip
    typeSpecs fuel
  else
    return [← typeSpec fuel]

def startsNameBracket : List Token → Bool
  | ⟨.ident _, _⟩ :: ⟨.operator .leftBracket, _⟩ :: _ => true
  | _ => false

def nameParameters : Reader (List String) := do
  if startsNameBracket (← ahead) then
    skip
    typeParameters
  else
    return []

def receiverName : Reader Unit := do
  match ← ahead with
  | ⟨.ident _, _⟩ :: ⟨.ident _, _⟩ :: _ | ⟨.ident _, _⟩ :: ⟨.operator .star, _⟩ :: _ => skip
  | _ => pure ()

def receiverParameters : Reader (List String) := do
  skip
  receiverName
  skipIf (.operator .star)
  nameParameters

/-- The type parameters that a method's receiver names. Reading goes on behind the receiver,
wherever its parameter list ended. -/
def receiver : Reader (List String) := do
  match group? (← ahead) with
  | some (inside, _) =>
    let names ← lookahead receiverParameters
    advance (inside.length + 2)
    return names
  | none => fail .unclosedReceiver

def funcParameters : Reader (List String) := do
  let outer ← if (← peek) = some (.operator .leftParen) then receiver else pure []
  return outer ++ (← nameParameters)

end Reader

def Cursor.atStatement (c : Cursor) : Bool :=
  match c.last with
  | none | some .semicolon => true
  | some _ => false

/-- What is known of a file part of the way through: the outline so far, the local types of the
blocks that are open, innermost block and newest type first, and the type parameters of the
function that is being read. -/
structure Skim where
  outline : Outline
  blocks : List (List TypeDecl)
  parameters : List String

namespace Skim

def start : Skim := ⟨⟨"", [], []⟩, [], []⟩

def scope (s : Skim) : Scope := ⟨s.parameters, s.blocks.flatten⟩

def specScope (s : Skim) (spec : TypeSpec) : Scope :=
  { parameters := spec.parameters ++ s.parameters
    locals := if s.blocks.isEmpty then [] else spec.itself :: s.blocks.flatten }

def addSites (s : Skim) (literals : List StructLiteral) (scope : Scope) : Skim :=
  { s with outline.sites := s.outline.sites ++ literals.map (⟨·, scope⟩) }

def addDecl (s : Skim) (decl : TypeDecl) : Skim :=
  match s.blocks with
  | [] => { s with outline.decls := s.outline.decls ++ [decl] }
  | block :: blocks => { s with blocks := (decl :: block) :: blocks }

def declare (s : Skim) (spec : TypeSpec) : Skim :=
  (s.addSites spec.literals (s.specScope spec)).addDecl spec.decl

def openBlock (s : Skim) : Skim := { s with blocks := [] :: s.blocks }

/-- Closes the innermost block. A function's type parameters are gone with its last block. -/
def closeBlock? (s : Skim) : Option Skim :=
  match s.blocks with
  | [] => none
  | [_] => some { s with blocks := [], parameters := [] }
  | _ :: blocks => some { s with blocks }

def step (fuel : Nat) (s : Skim) (c : Cursor) : Except Failure (Skim × Cursor) :=
  let topLevel := s.blocks.isEmpty
  match c.rest with
  | [] => .ok (s, c)
  | t :: ts =>
    match t.kind with
    | .ident "package" =>
      if topLevel && s.outline.package.isEmpty then do
        let name ← Reader.ident c.skip
        .ok ({ s with outline.package := name.value }, name.cursor)
      else .ok (s, c.skip)
    | .ident "type" =>
      match ts with
      | ⟨.ident _, _⟩ :: _ | ⟨.operator .leftParen, _⟩ :: _ => do
        let specs ← Reader.typeDecls fuel c.skip
        .ok (specs.value.foldl declare s, specs.cursor)
      | _ => .ok (s, c.skip)
    | .ident "struct" =>
      match ts with
      | ⟨.operator .leftBrace, _⟩ :: _ => do
        let found ← Reader.structType none (Reader.fieldList fuel nestingLimit) c
        .ok (s.addSites found.literals s.scope, found.cursor)
      | _ => .ok (s, c.skip)
    | .ident "func" =>
      if topLevel && c.atStatement then do
        let names ← Reader.funcParameters c.skip
        .ok ({ s with parameters := names.value }, names.cursor)
      else .ok (s, c.skip)
    | .ident "var" | .ident "const" | .ident "import" =>
      .ok (if topLevel then { s with parameters := [] } else s, c.skip)
    | .operator .leftBrace => .ok (s.openBlock, c.skip)
    | .operator .rightBrace =>
      match s.closeBlock? with
      | some s => .ok (s, c.skip)
      | none => .error ⟨.unbalancedBrace, some t.position⟩
    | _ => .ok (s, c.skip)

/-- Goes on to the end of the file. Each step takes at least one token, so as much fuel as there
are tokens is enough. -/
def run : (fuel : Nat) → Skim → Cursor → Except Failure Skim
  | _, s, ⟨_, []⟩ => .ok s
  | 0, _, ⟨_, t :: _⟩ => .error ⟨.unfinished, some t.position⟩
  | fuel + 1, s, c => do
    let (s, c) ← s.step (fuel + 1) c
    run fuel s c

end Skim

namespace Outline

def ofTokens (stream : TokenStream) : Except SyntaxError Outline :=
  match Skim.run stream.tokens.length .start (.start stream.tokens) with
  | .ok s => .ok s.outline
  | .error e => .error ⟨e.position.getD stream.stop, e.problem⟩

def ofSource (source : String) : Except SyntaxError Outline := do
  ofTokens (← TokenStream.ofSource source.toList)

end Outline

end FieldOrder.Source
