import FieldOrder.Source.Operator
import FieldOrder.Source.Position
import FieldOrder.Text.Quoted

/-!
What can be wrong with a source file, where it was noticed, and how it is told.
-/
namespace FieldOrder.Source

inductive Problem where
  | unexpected (text : List Char)
  | openComment
  | openRawString
  | unbalancedBrace
  | expectedOperator (op : Operator)
  | expectedChan
  | expectedIdentifier
  | expectedType
  | expectedFieldEnd
  | unclosedBracket
  | unclosedTypeParameters
  | unclosedReceiver
  | unclosedArrayLength
  | endInTypeDeclaration
  | endInStruct
  | nestedTooDeeply
  /-- Reading stopped with tokens left over. -/
  | unfinished
deriving DecidableEq, Repr

def Problem.message : Problem → String
  | unexpected text => "unexpected " ++ Text.quoted text
  | openComment => "comment not terminated"
  | openRawString => "raw string literal not terminated"
  | unbalancedBrace => "unbalanced `\x7d`"
  | expectedOperator op => "expected `" ++ op.text ++ "`"
  | expectedChan => "expected `chan`"
  | expectedIdentifier => "expected identifier"
  | expectedType => "expected type"
  | expectedFieldEnd => "expected `;` or `\x7d` after field"
  | unclosedBracket => "unclosed bracket"
  | unclosedTypeParameters => "unclosed type parameter list"
  | unclosedReceiver => "unclosed receiver"
  | unclosedArrayLength => "unclosed array length"
  | endInTypeDeclaration => "unexpected end of file in type declaration"
  | endInStruct => "unexpected end of file in struct type"
  | nestedTooDeeply => "type nested too deeply"
  | unfinished => "file not read to its end"

structure SyntaxError where
  position : Position
  problem : Problem
deriving DecidableEq, Repr

def SyntaxError.told (e : SyntaxError) : SyntaxError := ⟨e.position.told, e.problem⟩

def SyntaxError.message (e : SyntaxError) (path : String) : String :=
  (Place.mk path e.position).text ++ ": syntax error: " ++ e.problem.message

end FieldOrder.Source
