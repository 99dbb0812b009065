import FieldOrder.Shape
import Mathlib.Logic.Basic
import Mathlib.Tactic.Conv

/-!
Types as trees: induction over them, the parts they are made of, and types of which every part is
resolved.
-/
namespace FieldOrder

namespace Shape

@[elab_as_elim, induction_eliminator]
theorem induction {motive : Shape → Prop} (scalar : ∀ kind, motive (.scalar kind))
    (string : motive .string) (array : ∀ elem length, motive elem → motive (.array elem length))
    (slice : motive .slice) (pointer : motive .pointer) (interface : motive .interface)
    (struct : ∀ fields, (∀ f ∈ fields, motive f.type) → motive (.struct fields))
    (unresolved : ∀ name, motive (.unresolved name)) (t : Shape) : motive t := by
  refine @Shape.rec motive (fun fields => ∀ f ∈ fields, motive f.type) (fun f => motive f.type)
    scalar string array slice pointer interface struct unresolved ?_ ?_ ?_ t
  · simp
  · intro f fields hf hfields
    exact List.forall_mem_cons.mpr ⟨hf, hfields⟩
  · intro name type index htype
    exact htype

mutual

def same : Shape → Shape → Bool
  | .scalar k, .scalar l => k == l
  | .string, .string => true
  | .array s m, .array t n => m == n && s.same t
  | .slice, .slice => true
  | .pointer, .pointer => true
  | .interface, .interface => true
  | .struct fs, .struct gs => sameFields fs gs
  | .unresolved a, .unresolved b => a == b
  | _, _ => false

def sameFields : List (Field Shape) → List (Field Shape) → Bool
  | [], [] => true
  | ⟨a, s, i⟩ :: fs, ⟨b, t, j⟩ :: gs => a == b && s.same t && i == j && sameFields fs gs
  | _, _ => false

end

theorem sameFields_iff {fs : List (Field Shape)}
    (h : ∀ f ∈ fs, ∀ t, f.type.same t = true ↔ f.type = t) (gs : List (Field Shape)) :
    sameFields fs gs = true ↔ fs = gs := by
  induction fs generalizing gs with
  | nil => cases gs <;> simp [sameFields]
  | cons f fs ih =>
    obtain ⟨hf, hfs⟩ := List.forall_mem_cons.mp h
    cases gs with
    | nil => simp [sameFields]
    | cons g gs =>
      obtain ⟨a, s, i⟩ := f
      obtain ⟨b, t, j⟩ := g
      simp [sameFields, ih hfs, hf t, and_assoc]

theorem same_iff (s t : Shape) : s.same t = true ↔ s = t := by
  induction s generalizing t with
  | scalar _ | string | slice | pointer | interface | unresolved _ => cases t <;> simp [same]
  | array s n ih => cases t <;> simp [same, ih, and_comm]
  | struct fs ih => cases t <;> simp [same, sameFields_iff ih]

instance : DecidableEq Shape := fun s t => decidable_of_iff (s.same t = true) (same_iff s t)

mutual

/-- The type itself and all types it is made of. The elements of an array are among them, even if it
has none. -/
def parts : Shape → List Shape
  | .scalar kind => [.scalar kind]
  | .string => [.string]
  | .array elem length => .array elem length :: elem.parts
  | .slice => [.slice]
  | .pointer => [.pointer]
  | .interface => [.interface]
  | .struct fields => .struct fields :: partsOfEach fields
  | .unresolved name => [.unresolved name]

def partsOfEach : List (Field Shape) → List Shape
  | [] => []
  | f :: fs => partsOfField f ++ partsOfEach fs

def partsOfField : Field Shape → List Shape
  | ⟨_, type, _⟩ => type.parts

end

theorem self_mem_parts (t : Shape) : t ∈ t.parts := by
  cases t <;> simp [parts]

theorem mem_parts_array {s elem : Shape} {n : Nat} :
    s ∈ (array elem n).parts ↔ s = .array elem n ∨ s ∈ elem.parts := by
  rw [parts, List.mem_cons]

theorem mem_partsOfEach {s : Shape} {fields : List (Field Shape)} :
    s ∈ partsOfEach fields ↔ ∃ f ∈ fields, s ∈ f.type.parts := by
  induction fields with
  | nil => simp [partsOfEach]
  | cons f fs ih =>
    obtain ⟨name, type, index⟩ := f
    simp [partsOfEach, partsOfField, ih]

theorem mem_parts_struct {s : Shape} {fields : List (Field Shape)} :
    s ∈ (struct fields).parts ↔ s = .struct fields ∨ ∃ f ∈ fields, s ∈ f.type.parts := by
  rw [parts, List.mem_cons, mem_partsOfEach]

theorem mem_parts_ofFields {s : Shape} {fields : List (String × Shape)} :
    s ∈ (ofFields fields).parts ↔ s = .ofFields fields ∨ ∃ f ∈ fields, s ∈ f.2.parts := by
  have hfields : (∃ f ∈ fields, s ∈ f.2.parts) ↔
    ∃ f ∈ fields.zipIdx.map Prod.fst, s ∈ f.2.parts := by
    rw [List.zipIdx_map_fst]
  simp only [hfields, ofFields, mem_parts_struct, List.mem_map, exists_exists_and_eq_and]

mutual

def Resolved : Shape → Prop
  | array elem _ => elem.Resolved
  | struct fields => FieldsResolved fields
  | unresolved _ => False
  | _ => True

def FieldsResolved : List (Field Shape) → Prop
  | [] => True
  | ⟨_, type, _⟩ :: fs => type.Resolved ∧ FieldsResolved fs

end

theorem fieldsResolved_iff {fs : List (Field Shape)} :
    FieldsResolved fs ↔ ∀ f ∈ fs, f.type.Resolved := by
  induction fs with
  | nil => simp [FieldsResolved]
  | cons f fs ih => simp [FieldsResolved, ih]

theorem resolved_ofFields {fields : List (String × Shape)} :
    (ofFields fields).Resolved ↔ ∀ f ∈ fields, f.2.Resolved := by
  conv_rhs => rw [← List.zipIdx_map_fst 0 fields]
  simp only [ofFields, Resolved, fieldsResolved_iff, List.forall_mem_map]

theorem resolved_iff {t : Shape} : t.Resolved ↔ ∀ name, .unresolved name ∉ t.parts := by
  induction t with
  | scalar _ | string | slice | pointer | interface | unresolved _ => simp [Resolved, parts]
  | array elem n ih => simp [Resolved, parts, ih]
  | struct fields ih =>
    simp only [Resolved, fieldsResolved_iff, mem_parts_struct, reduceCtorEq, false_or]
    constructor
    · intro h name hmem
      obtain ⟨f, hf, hname⟩ := hmem
      exact (ih f hf).mp (h f hf) name hname
    · intro h f hf
      exact (ih f hf).mpr fun name hname => h name ⟨f, hf, hname⟩

end Shape

end FieldOrder
