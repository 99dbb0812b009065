import FieldOrder.Source.Numeral
import FieldOrder.Source.Reader

/-!
Reading types. The recursive readers carry two bounds. `fuel` bounds their steps: each step takes a
token, so more fuel than tokens is always enough. `room` is how many types may still be nested in
one another, which is part of the language that is accepted.
-/
namespace FieldOrder.Source

def nestingLimit : Nat := 100

def TokenKind.lengthText : TokenKind → String
  | ident text | number text => text
  | operator op => op.text
  | literal | semicolon => ""

/-- The tokens up to the `]` that closes an array length. `level` counts the brackets left open and
may fall below zero; only a `]` at level zero closes the length. -/
def lengthTokens? (level : Int) : List Token → Option (List Token)
  | [] => none
  | t :: ts =>
    if t.kind = .operator .rightBracket ∧ level = 0 then some []
    else
      let level := match t.kind with
        | .operator .leftBracket | .operator .leftParen => level + 1
        | .operator .rightBracket | .operator .rightParen => level - 1
        | _ => level
      (lengthTokens? level ts).map (t :: ·)

/-- The names that a type parameter list declares: the identifiers at the start of its entries.
`first` says that an entry starts here. -/
def parameterNames (first : Bool) (level : Int) : List Token → List String
  | [] => []
  | t :: ts =>
    let level := match t.kind with
      | .operator .leftParen | .operator .leftBracket | .operator .leftBrace => level + 1
      | .operator .rightParen | .operator .rightBracket | .operator .rightBrace => level - 1
      | _ => level
    let names := parameterNames (level = 0 ∧ t.kind = .operator .comma) level ts
    match t.kind with
    | .ident name => if first then name :: names else names
    | _ => names

namespace Reader

def typeParameters : Reader (List String) := do
  match group? (← ahead) with
  | some (inside, _) => advance (inside.length + 2); return parameterNames true 0 inside
  | none => fail .unclosedTypeParameters

def arrayLength : Reader ArrayLength := do
  match ← ahead with
  | ⟨.number text, _⟩ :: ⟨.operator .rightBracket, _⟩ :: _ =>
    advance 2
    return match integer? text with
      | some n => .known n
      | none => .unknown text
  | ts =>
    match lengthTokens? 0 ts with
    | some length =>
      advance (length.length + 1)
      return .unknown (String.join (length.map (·.kind.lengthText)))
    | none => failAtEnd .unclosedArrayLength

/-- A bracket group. `inside` reads what is in it, given the number of tokens there. It may read
on past the closing bracket; then one more token is passed over all the same. -/
def bracketGroup (inside : Nat → Reader Unit) : Reader Unit := do
  match group? (← ahead) with
  | some (tokens, _) => skip; inside tokens.length; skip
  | none => fail .unclosedBracket

def typeName (inside : Nat → Reader Unit) : Reader (String × WrittenType) := do
  let first ← ident
  let (package, name) ←
    if (← peek) = some (.operator .dot) then skip; pure (some first, ← ident)
    else pure (none, first)
  let withArguments := (← peek) = some (.operator .leftBracket)
  if withArguments then bracketGroup inside
  return (name, .named package name withArguments)

def signature (inside : Nat → Reader Unit) (type : Reader WrittenType) : Reader Unit := do
  if (← peek) = some (.operator .leftParen) then bracketGroup inside
  else fail (.expectedOperator .leftParen)
  match ← peek with
  | some (.operator .leftParen) => bracketGroup inside
  | some (.ident _) | some (.operator .star) | some (.operator .leftBracket)
  | some (.operator .arrow) => discard type
  | _ => pure ()

def structType (name : Option String) (fields : Reader (List (FieldDecl WrittenType))) :
    Reader WrittenType := do
  let position := ((← ahead).head?.map (·.position)).getD .start
  skip
  expect .leftBrace
  let fields ← enclose (fun fields => ⟨position, name, fields⟩) fields
  return .struct fields

def endsField : List Token → Bool
  | ⟨.semicolon, _⟩ :: _ | ⟨.literal, _⟩ :: _ | ⟨.operator .rightBrace, _⟩ :: _ => true
  | _ => false

/-- Is the field ahead an embedded type? `List[int]` is one, `buf [4]byte` is not. -/
def isEmbedded : List Token → Bool
  | [] => false
  | _ :: ts =>
    match ts with
    | ⟨.operator .dot, _⟩ :: _ => true
    | ⟨.operator .leftBracket, _⟩ :: _ =>
      match group? ts with
      | some (_, after) => endsField after
      | none => false
    | _ => endsField ts

def namesAhead : List Token → List String
  | ⟨.operator .comma, _⟩ :: ⟨.ident name, _⟩ :: ts => name :: namesAhead ts
  | _ => []

def moreNames : Reader (List String) := do
  let names := namesAhead (← ahead)
  advance (2 * names.length)
  if (← peek) = some (.operator .comma) then
    skip
    fail .expectedIdentifier
  else
    return names

def fieldDecl (inside : Nat → Reader Unit) (type : Reader WrittenType) :
    Reader (List (FieldDecl WrittenType)) := do
  if (← peek) = some (.operator .star) then
    skip
    let (name, _) ← typeName inside
    return [⟨name, .reference⟩]
  else if isEmbedded (← ahead) then
    let (name, type) ← typeName inside
    return [⟨name, type⟩]
  else
    let first ← ident
    let more ← moreNames
    let type ← type
    return (first :: more).map (⟨·, type⟩)

def fieldEnd : Reader Unit := do
  skipIf .literal
  match ← peek with
  | some .semicolon => skip
  | some (.operator .rightBrace) => pure ()
  | _ => fail .expectedFieldEnd

mutual

def typeExpr : (fuel room : Nat) → Reader WrittenType
  | 0, _ => fail .unfinished
  | _ + 1, 0 => fail .nestedTooDeeply
  | fuel + 1, room + 1 => do
    match ← peek with
    | some (.ident "struct") => structType none (fieldList fuel room)
    | some (.ident "interface") =>
      skip
      bracketGroup (groupInside fuel room)
      return .interface
    | some (.ident "map") =>
      skip
      expect .leftBracket
      discard (typeExpr fuel room)
      expect .rightBracket
      discard (typeExpr fuel room)
      return .reference
    | some (.ident "chan") =>
      skip
      skipIf (.operator .arrow)
      discard (typeExpr fuel room)
      return .reference
    | some (.ident "func") =>
      skip
      signature (groupInside fuel room) (typeExpr fuel room)
      return .reference
    | some (.ident _) => return (← typeName (groupInside fuel room)).2
    | some (.operator .star) =>
      skip
      discard (typeExpr fuel room)
      return .reference
    | some (.operator .arrow) =>
      skip
      if (← peek) = some (.ident "chan") then skip else fail .expectedChan
      discard (typeExpr fuel room)
      return .reference
    | some (.operator .leftBracket) =>
      skip
      if (← peek) = some (.operator .rightBracket) then
        skip
        discard (typeExpr fuel room)
        return .slice
      else
        let length ← arrayLength
        return .array length (← typeExpr fuel room)
    | some (.operator .leftParen) =>
      skip
      let type ← typeExpr fuel room
      expect .rightParen
      return type
    | _ => fail .expectedType

def fieldList : (fuel room : Nat) → Reader (List (FieldDecl WrittenType))
  | 0, _ => fail .unfinished
  | fuel + 1, room => do
    match ← peek with
    | some .semicolon => skip; fieldList fuel room
    | some (.operator .rightBrace) => skip; return []
    | none => fail .endInStruct
    | some _ =>
      let fields ← fieldDecl (groupInside fuel room) (typeExpr fuel room)
      fieldEnd
      return fields ++ (← fieldList fuel room)

/-- Passes over the given number of tokens, reading the struct literals among them to their ends. -/
def groupInside : (fuel room left : Nat) → Reader Unit
  | 0, _, _ => fail .unfinished
  | _ + 1, _, 0 => pure ()
  | fuel + 1, room, left + 1 => do
    match ← ahead with
    | ts@(⟨.ident "struct", _⟩ :: ⟨.operator .leftBrace, _⟩ :: _) =>
      discard (structType none (fieldList fuel room))
      let taken := ts.length - (← ahead).length
      groupInside fuel room (left + 1 - taken)
    | _ =>
      skip
      groupInside fuel room left

end

end Reader

end FieldOrder.Source
