import FieldOrder.Source.Regex
import FieldOrder.Source.SyntaxError

/-!
Lexemes: the pieces of a source text, blanks and comments included. Each lexeme is the longest text
at its place that matches one of the rules, and together they make up the whole source.
-/
namespace FieldOrder.Source

inductive LexemeKind where
  | blank
  | newline
  | lineComment
  | blockComment
  | openComment
  | literal
  | openRawString
  | number
  | ident
  | semicolon
  | operator (op : Operator)
deriving DecidableEq, Repr

structure Lexeme where
  kind : LexemeKind
  text : List Char
  position : Position
deriving DecidableEq, Repr

structure Rule where
  kind : LexemeKind
  regex : Regex

namespace Rule
open Regex

def isBlank (c : Char) : Bool := c == ' ' || c == '\t' || c == '\r' || c == '\x0c'

def isDigit (c : Char) : Bool := c.isDigit || c == '_'

def isOctal (c : Char) : Bool := '0' ≤ c && c ≤ '7' || c == '_'

def isBinary (c : Char) : Bool := c == '0' || c == '1' || c == '_'

def isHex (c : Char) : Bool := isDigit c || 'a' ≤ c && c ≤ 'f' || 'A' ≤ c && c ≤ 'F'

def startsIdent (c : Char) : Bool := c.isAlpha || c == '_' || 0x80 ≤ c.toNat

def continuesIdent (c : Char) : Bool := startsIdent c || c.isDigit

def oneOf (a b : Char) : Regex := .one fun c => c == a || c == b

/-- Text between two quotes, on one line; a backslash takes the next character with it. -/
def quotedBy (q : Char) : Regex :=
  seqs [.one (· == q),
    .star (.alt (.one fun c => c != q && c != '\x5c' && c != '\n')
      (.seq (.one (· == '\x5c')) (.one (· != '\n')))),
    .one (· == q)]

def rawString : Regex :=
  seqs [.one (· == '\x60'), .star (.one (· != '\x60')), .one (· == '\x60')]

def lineComment : Regex := .seq (text ['/', '/']) (.star (.one (· != '\n')))

def blockComment : Regex :=
  seqs [text ['/', '*'],
    .star (.alt (.one (· != '*'))
      (.seq (plus (.one (· == '*'))) (.one fun c => c != '*' && c != '/'))),
    plus (.one (· == '*')),
    .one (· == '/')]

def exponent (low high : Char) : Regex :=
  seqs [oneOf low high, opt (oneOf '+' '-'), plus (.one isDigit)]

def imaginary : Regex := opt (.one (· == 'i'))

def decimal : Regex :=
  seqs [.one Char.isDigit, .star (.one isDigit),
    opt (.seq (.one (· == '.')) (.star (.one isDigit))), opt (exponent 'e' 'E'), imaginary]

def fraction : Regex :=
  seqs [.one (· == '.'), .one Char.isDigit, .star (.one isDigit), opt (exponent 'e' 'E'),
    imaginary]

def hexadecimal : Regex :=
  seqs [.one (· == '0'), oneOf 'x' 'X', .star (.one isHex),
    opt (.seq (.one (· == '.')) (.star (.one isHex))), opt (exponent 'p' 'P'), imaginary]

def octal : Regex := seqs [.one (· == '0'), oneOf 'o' 'O', plus (.one isOctal), imaginary]

def binary : Regex := seqs [.one (· == '0'), oneOf 'b' 'B', plus (.one isBinary), imaginary]

def identifier : Regex := .seq (.one startsIdent) (.star (.one continuesIdent))

/-- The rules of the language. A comment or raw string that is never closed leaves its opening
as the longest match. -/
def all : List Rule :=
  [⟨.blank, plus (.one isBlank)⟩,
    ⟨.newline, text ['\n']⟩,
    ⟨.lineComment, lineComment⟩,
    ⟨.blockComment, blockComment⟩,
    ⟨.openComment, text ['/', '*']⟩,
    ⟨.literal, quotedBy '\x22'⟩,
    ⟨.literal, quotedBy '\x27'⟩,
    ⟨.literal, rawString⟩,
    ⟨.openRawString, text ['\x60']⟩,
    ⟨.number, decimal⟩,
    ⟨.number, fraction⟩,
    ⟨.number, hexadecimal⟩,
    ⟨.number, octal⟩,
    ⟨.number, binary⟩,
    ⟨.ident, identifier⟩,
    ⟨.semicolon, text [';']⟩] ++
  Operator.all.map fun op => ⟨.operator op, text op.text.toList⟩

def advance? (c : Char) (r : Rule) : Option Rule :=
  let regex := r.regex.derivative c
  if regex.isNever then none else some ⟨r.kind, regex⟩

end Rule

def complete? (rules : List Rule) : Option LexemeKind :=
  (rules.find? (·.regex.nullable)).map (·.kind)

def longestMatch (rules : List Rule) : List Char → Option (LexemeKind × Nat)
  | [] => (complete? rules).map (·, 0)
  | c :: cs =>
    let rest := rules.filterMap (Rule.advance? c)
    match if rest.isEmpty then none else longestMatch rest cs with
    | some (kind, n) => some (kind, n + 1)
    | none => (complete? rules).map (·, 0)

/-- The length of the longest start of the text that some rule could still complete. -/
def viableLength (rules : List Rule) : List Char → Nat
  | [] => 0
  | c :: cs =>
    let rest := rules.filterMap (Rule.advance? c)
    if rest.isEmpty then 0 else viableLength rest cs + 1

/-- What to show of a text that starts with no lexeme: all that could have become one, and at
least one character. -/
def unexpectedText (cs : List Char) : List Char :=
  cs.take (max 1 (viableLength Rule.all cs))

namespace Lexeme

/-- Splits a text into lexemes. `owed` characters of the text belong to the lexeme before it. -/
def scan (owed : Nat) (p : Position) : List Char → Except SyntaxError (List Lexeme)
  | [] => .ok []
  | c :: cs =>
    match owed with
    | n + 1 => scan n (p.advance c) cs
    | 0 =>
      match longestMatch Rule.all (c :: cs) with
      | none => .error ⟨p, .unexpected (unexpectedText (c :: cs))⟩
      | some (.openComment, _) => .error ⟨p, .openComment⟩
      | some (.openRawString, _) => .error ⟨p, .openRawString⟩
      | some (kind, n) => do
        let lexemes ← scan (n - 1) (p.advance c) cs
        .ok (⟨kind, (c :: cs).take n, p⟩ :: lexemes)

def ofSource (source : List Char) : Except SyntaxError (List Lexeme) :=
  scan 0 .start source

end Lexeme

end FieldOrder.Source
