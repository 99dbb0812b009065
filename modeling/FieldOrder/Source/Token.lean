import FieldOrder.Source.Lexeme

/-!
Tokens: the lexemes that carry meaning, and the semicolons that stand at the ends of lines.

A line break ends the statement if the token before it can end one. It counts wherever it is seen:
as a newline, inside a block comment, or at the end of the source.
-/
namespace FieldOrder.Source

inductive TokenKind where
  | ident (name : String)
  | number (text : String)
  | literal
  | operator (op : Operator)
  | semicolon
deriving DecidableEq, Repr

structure Token where
  kind : TokenKind
  position : Position
deriving DecidableEq, Repr

def Token.told (t : Token) : Token := ⟨t.kind, t.position.told⟩

def TokenKind.canEndStatement : TokenKind → Bool
  | ident _ | number _ | literal => true
  | operator op =>
    match op with
    | .rightParen | .rightBracket | .rightBrace | .increment | .decrement => true
    | _ => false
  | semicolon => false

namespace Lexeme

def token? (l : Lexeme) : Option TokenKind :=
  match l.kind with
  | .ident => some (.ident (String.ofList l.text))
  | .number => some (.number (String.ofList l.text))
  | .literal => some .literal
  | .semicolon => some .semicolon
  | .operator op => some (.operator op)
  | .blank | .newline | .lineComment | .blockComment | .openComment | .openRawString => none

def breaksLine (l : Lexeme) : Bool := l.text.contains '\n'

end Lexeme

structure TokenStream where
  tokens : List Token
  stop : Position
deriving DecidableEq, Repr

namespace TokenStream

/-- The tokens of the lexemes, with a semicolon at each line break that ends a statement. `pending`
says that the last token can end one. -/
def insertSemicolons (stop : Position) (pending : Bool) : List Lexeme → List Token
  | [] => if pending then [⟨.semicolon, stop⟩] else []
  | l :: ls =>
    match l.token? with
    | some kind => ⟨kind, l.position⟩ :: insertSemicolons stop kind.canEndStatement ls
    | none =>
      if pending && l.breaksLine then ⟨.semicolon, l.position⟩ :: insertSemicolons stop false ls
      else insertSemicolons stop pending ls

def ofSource (source : List Char) : Except SyntaxError TokenStream := do
  let lexemes ← Lexeme.ofSource source
  let stop := Position.start.after source
  .ok ⟨insertSemicolons stop false lexemes, stop⟩

def told (s : TokenStream) : TokenStream := ⟨s.tokens.map (·.told), s.stop.told⟩

/-- The tokens of a source with the lines and columns that are told of them. -/
def listing (source : List Char) : Except SyntaxError TokenStream :=
  ((ofSource source).map told).mapError (·.told)

end TokenStream

end FieldOrder.Source
