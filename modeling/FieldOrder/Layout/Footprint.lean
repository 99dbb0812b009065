import FieldOrder.Shape

/-!
The layout calculator: the footprint of a type on a target, which is its size, its alignment and its
pointer bytes. Pointer bytes are the length of the prefix of a value that may hold references.

Sizes are natural numbers. Every intermediate result has to fit in 64 bits, which `fit` checks, so
a result is exact or there is none. A struct is measured in two steps: its fields on their own
(`measureEach`), then their placement one after the other (`layOut`).
-/
namespace FieldOrder

inductive LayoutError where
  | unresolved (name : String)
  | notAStruct (kind : String)
  | overflow
deriving DecidableEq, Repr

def LayoutError.message : LayoutError → String
  | .unresolved name => "unresolved type `" ++ name ++ "`"
  | .notAStruct kind => "expected a struct type, found " ++ kind
  | .overflow => "layout does not fit in 64 bits"

/-- What a field order is judged by: the size, and how much of its start may hold references. -/
structure Layout where
  size : Nat
  pointerBytes : Nat
deriving DecidableEq, Repr

structure Footprint where
  size : Nat
  align : Nat
  pointerBytes : Nat
deriving DecidableEq, Repr

def Footprint.layout (f : Footprint) : Layout := ⟨f.size, f.pointerBytes⟩

def roundUp (x a : Nat) : Nat := (x + a - 1) / a * a

def fit (n : Nat) : Except LayoutError Nat :=
  if n < UInt64.size then .ok n else .error .overflow

/-- `n` values in a row, each on the next multiple of the alignment. The last one counts with its
size and not with its stride, and the references end where those of the last one do. -/
def Footprint.replicate (e : Footprint) : Nat → Except LayoutError Footprint
  | 0 => .ok ⟨0, e.align, 0⟩
  | n + 1 => do
    let stride ← fit (roundUp e.size e.align)
    let last ← fit (stride * n)
    let size ← fit (last + e.size)
    let pointerBytes ← if e.pointerBytes = 0 then .ok 0 else fit (last + e.pointerBytes)
    .ok ⟨size, e.align, pointerBytes⟩

structure Placement where
  offset : Nat
  align : Nat
  pointerEnd : Nat
deriving DecidableEq, Repr

namespace Placement

def empty : Placement := ⟨0, 1, 0⟩

/-- Places one field. A last field without size takes one byte if anything stands before it, so
that a pointer to it does not point past the struct. -/
def add (p : Placement) (f : Footprint) (last : Bool) : Except LayoutError Placement := do
  let size := if last ∧ f.size = 0 ∧ p.offset ≠ 0 then 1 else f.size
  let start ← fit (roundUp p.offset f.align)
  let pointerEnd ← if f.pointerBytes = 0 then .ok p.pointerEnd else fit (start + f.pointerBytes)
  let offset ← fit (start + size)
  .ok ⟨offset, max p.align f.align, pointerEnd⟩

def addAll (p : Placement) : List (Except LayoutError Footprint) → Except LayoutError Placement
  | [] => .ok p
  | field :: fields => do
    let p ← p.add (← field) fields.isEmpty
    p.addAll fields

def finish (p : Placement) : Except LayoutError Footprint := do
  let size ← fit (roundUp p.offset p.align)
  .ok ⟨size, p.align, p.pointerEnd⟩

end Placement

def layOut (fields : List (Except LayoutError Footprint)) : Except LayoutError Footprint := do
  (← Placement.empty.addAll fields).finish

/-- A layout calculator. Without tracking, no type has pointer bytes. -/
structure Calculator where
  target : Target
  tracking : Bool
deriving DecidableEq, Repr

namespace Calculator

/-- A value that is not made of others is aligned to its own size, up to the largest alignment. -/
def leaf (c : Calculator) (size pointerBytes : Nat) : Except LayoutError Footprint := do
  let size ← fit size
  .ok ⟨size, min size c.target.maxAlign, if c.tracking then pointerBytes else 0⟩

mutual

def measure (c : Calculator) : Shape → Except LayoutError Footprint
  | .scalar kind => c.leaf kind.size 0
  | .string => c.leaf (2 * c.target.word) c.target.word
  | .slice => c.leaf (3 * c.target.word) c.target.word
  | .pointer => c.leaf c.target.word c.target.word
  | .interface => c.leaf (2 * c.target.word) (2 * c.target.word)
  | .array elem length => do (← c.measure elem).replicate length
  | .struct fields => layOut (c.measureEach fields)
  | .unresolved name => .error (.unresolved name)

def measureEach (c : Calculator) : List (Field Shape) → List (Except LayoutError Footprint)
  | [] => []
  | f :: fs => c.measureField f :: c.measureEach fs

def measureField (c : Calculator) : Field Shape → Except LayoutError Footprint
  | ⟨_, type, _⟩ => c.measure type

end

def measureStruct (c : Calculator) (fields : List (Field Shape)) : Except LayoutError Footprint :=
  layOut (c.measureEach fields)

end Calculator

end FieldOrder
