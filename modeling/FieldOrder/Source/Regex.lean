/-!
Regular expressions over characters, matched by taking derivatives: the derivative by a character
matches what may follow that character.

The derivatives are built with `andThen` and `orElse`, which drop parts that can match nothing. So
an expression built from inhabited classes can still be completed exactly if it is not `never`.
-/
namespace FieldOrder.Source

inductive Regex where
  | never
  | empty
  | one (p : Char → Bool)
  | seq (r s : Regex)
  | alt (r s : Regex)
  | star (r : Regex)

namespace Regex

def plus (r : Regex) : Regex := .seq r (.star r)

def opt (r : Regex) : Regex := .alt .empty r

def text : List Char → Regex
  | [] => .empty
  | c :: cs => .seq (.one (· == c)) (text cs)

def seqs : List Regex → Regex
  | [] => .empty
  | r :: rs => .seq r (seqs rs)

def nullable : Regex → Bool
  | never => false
  | empty => true
  | one _ => false
  | seq r s => r.nullable && s.nullable
  | alt r s => r.nullable || s.nullable
  | star _ => true

def isNever : Regex → Bool
  | never => true
  | _ => false

def andThen : Regex → Regex → Regex
  | never, _ => never
  | _, never => never
  | empty, s => s
  | r, s => .seq r s

def orElse : Regex → Regex → Regex
  | never, s => s
  | r, never => r
  | r, s => .alt r s

def derivative (c : Char) : Regex → Regex
  | never => never
  | empty => never
  | one p => if p c then empty else never
  | seq r s =>
    let rs := (r.derivative c).andThen s
    if r.nullable then rs.orElse (s.derivative c) else rs
  | alt r s => (r.derivative c).orElse (s.derivative c)
  | star r => (r.derivative c).andThen (.star r)

end Regex

end FieldOrder.Source
