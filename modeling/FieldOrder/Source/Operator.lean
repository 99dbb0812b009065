/-!
The operators and punctuation of the Go language.
-/
namespace FieldOrder.Source

inductive Operator where
  | shlAssign | shrAssign | andNotAssign | ellipsis
  | logicalAnd | logicalOr | arrow | increment | decrement
  | equal | notEqual | lessEqual | greaterEqual | define
  | shl | shr | andNot
  | addAssign | subAssign | mulAssign | divAssign | remAssign | andAssign | orAssign | xorAssign
  | add | sub | star | div | rem | and | or | xor | less | greater | assign | not | tilde
  | leftParen | rightParen | leftBracket | rightBracket | leftBrace | rightBrace
  | comma | dot | colon
deriving DecidableEq, Repr

namespace Operator

def all : List Operator :=
  [shlAssign, shrAssign, andNotAssign, ellipsis,
    logicalAnd, logicalOr, arrow, increment, decrement,
    equal, notEqual, lessEqual, greaterEqual, define,
    shl, shr, andNot,
    addAssign, subAssign, mulAssign, divAssign, remAssign, andAssign, orAssign, xorAssign,
    add, sub, star, div, rem, and, or, xor, less, greater, assign, not, tilde,
    leftParen, rightParen, leftBracket, rightBracket, leftBrace, rightBrace,
    comma, dot, colon]

def text : Operator → String
  | shlAssign => "<<="
  | shrAssign => ">>="
  | andNotAssign => "&^="
  | ellipsis => "..."
  | logicalAnd => "&&"
  | logicalOr => "||"
  | arrow => "<-"
  | increment => "++"
  | decrement => "--"
  | equal => "=="
  | notEqual => "!="
  | lessEqual => "<="
  | greaterEqual => ">="
  | define => ":="
  | shl => "<<"
  | shr => ">>"
  | andNot => "&^"
  | addAssign => "+="
  | subAssign => "-="
  | mulAssign => "*="
  | divAssign => "/="
  | remAssign => "%="
  | andAssign => "&="
  | orAssign => "|="
  | xorAssign => "^="
  | add => "+"
  | sub => "-"
  | star => "*"
  | div => "/"
  | rem => "%"
  | and => "&"
  | or => "|"
  | xor => "^"
  | less => "<"
  | greater => ">"
  | assign => "="
  | not => "!"
  | tilde => "~"
  | leftParen => "("
  | rightParen => ")"
  | leftBracket => "["
  | rightBracket => "]"
  | leftBrace => "\x7b"
  | rightBrace => "\x7d"
  | comma => ","
  | dot => "."
  | colon => ":"

end Operator

end FieldOrder.Source
