import FieldOrder.Layout.Arrangement

/-!
Findings: where the declared order of a struct's fields and the arranged one differ in size or in
pointer bytes.
-/
namespace FieldOrder

inductive FindingKind where
  | size
  | pointerBytes
deriving DecidableEq, Repr

/-- What is wrong with one struct. `ρ` says where the struct is and is handed back untouched. -/
structure Finding (ρ : Type) where
  position : ρ
  kind : FindingKind
  actual : Layout
  optimal : Layout
  suggested : List String
deriving Repr

def Finding.numbers {ρ : Type} (f : Finding ρ) : Nat × Nat :=
  match f.kind with
  | .size => (f.actual.size, f.optimal.size)
  | .pointerBytes => (f.actual.pointerBytes, f.optimal.pointerBytes)

structure Candidate (ρ : Type) where
  shape : Shape
  position : ρ
  name : Option String

/-- What came of a candidate: its findings, or where and why it could not be measured. -/
abbrev Verdict (ρ : Type) := Except (ρ × LayoutError) (List (Finding ρ))

variable {ρ : Type}

/-- Size and pointer bytes are judged apart, size first. -/
def findingsBetween (actual optimal : Layout) (position : ρ) (suggested : List String) :
    List (Finding ρ) :=
  (if actual.size ≠ optimal.size then
    [⟨position, .size, actual, optimal, suggested⟩] else []) ++
  (if actual.pointerBytes ≠ optimal.pointerBytes then
    [⟨position, .pointerBytes, actual, optimal, suggested⟩] else [])

namespace Calculator

def inspect (c : Calculator) (shape : Shape) (position : ρ) :
    Except LayoutError (List (Finding ρ)) :=
  match shape with
  | .struct fields => do
    let actual ← c.measureStruct fields
    let optimal ← c.arrange fields
    .ok (findingsBetween actual.layout optimal.layout position optimal.names)
  | shape => .error (.notAStruct shape.kind)

def verdict (c : Calculator) (candidate : Candidate ρ) : Verdict ρ :=
  (c.inspect candidate.shape candidate.position).mapError (candidate.position, ·)

end Calculator

end FieldOrder
