/-!
Positions in source text: lines and columns count from one, columns in bytes of UTF-8. They are told
in 32 bits, so that far down in a very large text they start again from zero.
-/
namespace FieldOrder.Source

structure Position where
  line : Nat
  column : Nat
deriving DecidableEq, Repr

namespace Position

def start : Position := ⟨1, 1⟩

def advance (p : Position) (c : Char) : Position :=
  if c = '\n' then ⟨p.line + 1, 1⟩ else ⟨p.line, p.column + c.utf8Size⟩

def after (p : Position) (cs : List Char) : Position := cs.foldl advance p

/-- Lines and columns are told as numbers of 32 bits. -/
def told (p : Position) : Position := ⟨p.line.toUInt32.toNat, p.column.toUInt32.toNat⟩

end Position

structure Place where
  path : String
  position : Position
deriving DecidableEq, Repr

def Place.text (p : Place) : String :=
  p.path ++ ":" ++ p.position.told.line.repr ++ ":" ++ p.position.told.column.repr

end FieldOrder.Source
