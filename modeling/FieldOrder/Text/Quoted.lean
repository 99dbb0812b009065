import FieldOrder.Text.Shown

/-!
Text in double quotes, with what does not show as itself escaped.
-/
namespace FieldOrder.Text

def codePoint (c : Char) : List Char :=
  ['\x5c', 'u', '\x7b'] ++ Nat.toDigits 16 c.toNat ++ ['\x7d']

def escape (c : Char) : List Char :=
  if c = '\x00' then ['\x5c', '0']
  else if c = '\t' then ['\x5c', 't']
  else if c = '\n' then ['\x5c', 'n']
  else if c = '\r' then ['\x5c', 'r']
  else if c = '\x22' ∨ c = '\x5c' then ['\x5c', c]
  else if isShown c then [c]
  else codePoint c

def quoted (cs : List Char) : String :=
  String.ofList (['\x22'] ++ cs.flatMap escape ++ ['\x22'])

end FieldOrder.Text
