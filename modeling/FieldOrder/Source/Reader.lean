import FieldOrder.Source.Declaration
import FieldOrder.Source.Token

/-!
Readers move a cursor forward over the tokens of a file. Besides its value a reader yields the
struct literals that it came across, in the order in which they start.
-/
namespace FieldOrder.Source

/-- A place between two tokens: the kind of the one before it, unless the file starts here, and
the tokens behind it. -/
structure Cursor where
  last : Option TokenKind
  rest : List Token
deriving DecidableEq, Repr

namespace Cursor

def start (tokens : List Token) : Cursor := ⟨none, tokens⟩

def skip : Cursor → Cursor
  | ⟨_, t :: ts⟩ => ⟨some t.kind, ts⟩
  | c => c

def advance : Nat → Cursor → Cursor
  | 0, c => c
  | n + 1, c => c.skip.advance n

end Cursor

/-- Why reading failed, and at which token; no position is the end of the file. -/
structure Failure where
  problem : Problem
  position : Option Position
deriving DecidableEq, Repr

structure Reading (α : Type) where
  value : α
  literals : List StructLiteral
  cursor : Cursor

def Reader (α : Type) : Type := Cursor → Except Failure (Reading α)

namespace Reader

variable {α : Type}

instance : Monad Reader where
  pure a := fun c => .ok ⟨a, [], c⟩
  bind r f := fun c => do
    let a ← r c
    let b ← f a.value a.cursor
    .ok ⟨b.value, a.literals ++ b.literals, b.cursor⟩

def fail (problem : Problem) : Reader α :=
  fun c => .error ⟨problem, c.rest.head?.map (·.position)⟩

def failAtEnd (problem : Problem) : Reader α := fun _ => .error ⟨problem, none⟩

def ahead : Reader (List Token) := fun c => .ok ⟨c.rest, [], c⟩

def peek : Reader (Option TokenKind) := fun c => .ok ⟨c.rest.head?.map (·.kind), [], c⟩

def skip : Reader Unit := fun c => .ok ⟨(), [], c.skip⟩

def advance (n : Nat) : Reader Unit := fun c => .ok ⟨(), [], c.advance n⟩

def lookahead (r : Reader α) : Reader α := fun c => do
  let a ← r c
  .ok ⟨a.value, [], c⟩

def skipIf (kind : TokenKind) : Reader Unit := do
  if (← peek) = some kind then skip

def expect (op : Operator) : Reader Unit := do
  if (← peek) = some (.operator op) then skip else fail (.expectedOperator op)

def ident : Reader String := do
  match ← peek with
  | some (.ident name) => skip; return name
  | _ => fail .expectedIdentifier

/-- Puts a literal in front of those found while its fields were read. -/
def enclose (literal : α → StructLiteral) (r : Reader α) : Reader α := fun c => do
  let a ← r c
  .ok ⟨a.value, literal a.value :: a.literals, a.cursor⟩

def collect (r : Reader α) : Reader (α × List StructLiteral) := fun c => do
  let a ← r c
  .ok ⟨(a.value, a.literals), [], a.cursor⟩

end Reader

def Operator.closing? : Operator → Option Operator
  | .leftParen => some .rightParen
  | .leftBracket => some .rightBracket
  | .leftBrace => some .rightBrace
  | _ => none

/-- Splits tokens at the bracket that closes the group they stand in: what is before it and what
is behind it. Only brackets of the same shape are counted. -/
def splitGroup (opening closing : Operator) (level : Nat) :
    List Token → Option (List Token × List Token)
  | [] => none
  | t :: ts =>
    if t.kind = .operator closing then
      match level with
      | 0 => some ([], ts)
      | n + 1 => (splitGroup opening closing n ts).map fun (inside, after) => (t :: inside, after)
    else
      let level := if t.kind = .operator opening then level + 1 else level
      (splitGroup opening closing level ts).map fun (inside, after) => (t :: inside, after)

def group? : List Token → Option (List Token × List Token)
  | ⟨.operator op, _⟩ :: ts => op.closing?.bind fun closing => splitGroup op closing 0 ts
  | _ => none

end FieldOrder.Source
