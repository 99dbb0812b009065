import FieldOrder.Layout.Footprint

/-!
A better order for the fields of a struct: fields that fit together without padding follow one
another, and those with references come early. The calculator that measured the declared order lays
the new one out, so the two can be compared.
-/
namespace FieldOrder

structure MeasuredField where
  field : Field Shape
  footprint : Footprint

namespace MeasuredField

def hasSize (f : MeasuredField) : Bool := f.footprint.size != 0

def hasNoPointers (f : MeasuredField) : Bool := f.footprint.pointerBytes == 0

def tail (f : MeasuredField) : Nat :=
  if f.hasNoPointers then 0 else f.footprint.size - f.footprint.pointerBytes

/-- Which field goes first. Fields without size lead, then the more strictly aligned, then those
with references, of these the one with the shorter tail, then the larger; the index settles what is
left. -/
def priority : MeasuredField → MeasuredField → Ordering :=
  compareLex (compareOn hasSize) <|
  compareLex (fun a b => compareOn (·.footprint.align) b a) <|
  compareLex (compareOn hasNoPointers) <|
  compareLex (compareOn tail) <|
  compareLex (fun a b => compareOn (·.footprint.size) b a) <|
  compareOn (·.field.index)

def goesFirst (a b : MeasuredField) : Bool := (priority a b).isLE

end MeasuredField

structure Arrangement where
  fields : List (Field Shape)
  layout : Layout

def Arrangement.names (a : Arrangement) : List String := a.fields.map (·.name)

namespace Calculator

def measured (c : Calculator) (f : Field Shape) : Except LayoutError MeasuredField := do
  .ok ⟨f, ← c.measure f.type⟩

/-- Puts the fields in order of priority and lays them out again. Fields of equal priority keep
their order. -/
def arrange (c : Calculator) (fields : List (Field Shape)) : Except LayoutError Arrangement := do
  let measured ← fields.mapM c.measured
  let ordered := (measured.mergeSort MeasuredField.goesFirst).map (·.field)
  let footprint ← c.measureStruct ordered
  .ok ⟨ordered, footprint.layout⟩

end Calculator

end FieldOrder
