import FieldOrder.Proofs.Layout.Exactness

/-!
Rows of values. An array is measured at one stroke, from the stride and the last element; a struct
is measured field by field. On the same elements the two end in the same struct, and as the size of
that struct bounds every number on both ways, they also overflow together.
-/
namespace FieldOrder

namespace Footprint

variable {e : Footprint}

/-- A row that is followed by another value ends where the next stride begins. -/
theorem roundUp_repeated_size (he : 0 < e.align) (n : Nat) :
    roundUp (e.repeated (n + 1)).size e.align = roundUp e.size e.align * (n + 1) := by
  have hdvd : e.align ∣ roundUp e.size e.align * n := (dvd_roundUp e.size e.align).mul_right n
  rw [repeated, roundUp_add_of_dvd he hdvd, Nat.mul_succ]

theorem replicate_of_roundUp_fits (he : e.Sound) {n : Nat}
    (hfit : roundUp (e.repeated (n + 1)).size e.align < 2 ^ 64) :
    e.replicate (n + 1) = .ok (e.repeated (n + 1)) := by
  have hsize := le_roundUp e.size he.align_pos
  have hpointers := he.pointers_le
  rw [roundUp_repeated_size he.align_pos, Nat.mul_succ] at hfit
  exact replicate_succ_eq_ok.mpr ⟨rfl, by omega, by omega, by omega, by omega⟩

end Footprint

namespace Placement

variable {e : Footprint}

def alone (e : Footprint) : Placement := ⟨e.size, e.align, e.pointerBytes⟩

theorem empty_next (he : 0 < e.align) (last : Bool) : empty.next e last = alone e := by
  have hstart : empty.startOf e = 0 := roundUp_zero he
  have hsize : empty.sizeOf e last = e.size := if_neg fun h => h.2.2 rfl
  rw [next, hstart, hsize]
  by_cases hpointers : e.pointerBytes = 0 <;> simp [empty, alone, hpointers, Nat.succ_le_of_lt he]

theorem alone_repeated_next (he : 0 < e.align) (n : Nat) (last : Bool) :
    (alone (e.repeated (n + 1))).next e last = alone (e.repeated (n + 2)) := by
  have hstart : (alone (e.repeated (n + 1))).startOf e = roundUp e.size e.align * (n + 1) :=
    Footprint.roundUp_repeated_size he n
  -- a row of values without size has none either, so that its last value takes no extra byte
  have hsize : (alone (e.repeated (n + 1))).sizeOf e last = e.size := by
    refine if_neg fun h => h.2.2 ?_
    have hempty : e.size = 0 := h.2.1
    simp [alone, Footprint.repeated, hempty, roundUp_zero he]
  rw [next, hstart, hsize]
  by_cases hpointers : e.pointerBytes = 0 <;> simp [alone, Footprint.repeated, hpointers]

theorem alone_repeated_nextAll (he : 0 < e.align) (n k : Nat) :
    (alone (e.repeated (n + 1))).nextAll (List.replicate k e) = alone (e.repeated (n + 1 + k)) := by
  induction k generalizing n with
  | zero => rfl
  | succ k ih =>
    rw [List.replicate_succ, nextAll, alone_repeated_next he, ih (n + 1)]
    congr 2
    omega

end Placement

variable {e : Footprint}

theorem placed_singleton (he : 0 < e.align) : placed [e] = (Placement.alone e).close := by
  rw [placed, Placement.nextAll, Placement.empty_next he, Placement.nextAll]

theorem placed_replicate (he : 0 < e.align) (n : Nat) :
    placed (List.replicate (n + 1) e) = placed [e.repeated (n + 1)] := by
  have hfirst : e = e.repeated 1 := by
    cases e
    simp [Footprint.repeated]
  have hrow : (Placement.alone e).nextAll (List.replicate n e) =
      Placement.alone (e.repeated (n + 1)) := by
    have h := Placement.alone_repeated_nextAll he 0 n
    rwa [← hfirst, Nat.zero_add, Nat.add_comm 1 n] at h
  rw [placed_singleton (by simpa using he), ← hrow, placed, List.replicate_succ, Placement.nextAll,
    Placement.empty_next he]

/-- A row makes a struct if this struct fits: it is as large as the row with the room behind it, and
no number on the way to the row is larger. -/
theorem layOut_row_eq_ok (he : e.Sound) {n : Nat} {m : Footprint} :
    layOut [e.replicate (n + 1)] = .ok m ↔ m = placed [e.repeated (n + 1)] ∧ m.size < 2 ^ 64 := by
  have hrow : (e.repeated (n + 1)).Sound := Calculator.sound_repeated he (n + 1)
  have hlayOut : layOut [.ok (e.repeated (n + 1))] = .ok m ↔
      m = placed [e.repeated (n + 1)] ∧ m.size < 2 ^ 64 :=
    layOut_eq_ok (List.forall_mem_singleton.mpr hrow)
  have hsize : (placed [e.repeated (n + 1)]).size = roundUp (e.repeated (n + 1)).size e.align := by
    rw [placed_singleton hrow.align_pos]
    simp [Placement.close, Placement.alone]
  constructor
  · intro h
    obtain ⟨fs, hfs, -⟩ := eq_placed_of_layOut h
    obtain ⟨f, -, hf⟩ := List.map_eq_singleton_iff.mp hfs.symm
    rw [← hf, Footprint.eq_repeated_of_replicate hf.symm] at h
    exact hlayOut.mp h
  · intro h
    have hfit : roundUp (e.repeated (n + 1)).size e.align < 2 ^ 64 := by
      rw [← hsize, ← h.1]
      exact h.2
    rw [Footprint.replicate_of_roundUp_fits he hfit]
    exact hlayOut.mpr h

theorem onlyOverflows_layOut_singleton {x : Except LayoutError Footprint} (hx : OnlyOverflows x) :
    OnlyOverflows (layOut [x]) := by
  intro err h
  refine (mem_of_layOut_eq_error h).elim id fun hmem => ?_
  exact hx err (List.mem_singleton.mp hmem).symm

theorem layOut_replicate (he : e.Sound) (n : Nat) :
    layOut [e.replicate (n + 1)] = layOut (List.replicate (n + 1) (.ok e)) := by
  have hvalues : ∀ f ∈ List.replicate (n + 1) e, f.Sound := by
    intro f hf
    rwa [List.eq_of_mem_replicate hf]
  rw [← List.map_replicate]
  refine OnlyOverflows.ext ?_ (onlyOverflows_layOut _) fun m => ?_
  · exact onlyOverflows_layOut_singleton (e.onlyOverflows_replicate (n + 1))
  · rw [layOut_row_eq_ok he, layOut_eq_ok hvalues, placed_replicate he.align_pos]

namespace Calculator

theorem measureEach_of_alike {c : Calculator} {elem : Shape} {fields : List (Field Shape)}
    (htype : ∀ f ∈ fields, f.type = elem) :
    c.measureEach fields = List.replicate fields.length (c.measure elem) := by
  rw [measureEach_eq_map, List.eq_replicate_iff]
  refine ⟨List.length_map _, fun x hx => ?_⟩
  obtain ⟨f, hf, rfl⟩ := List.mem_map.mp hx
  rw [htype f hf]

/-- The struct of one array and the struct of its elements, each a field of its own, are measured
alike: with the same size, alignment and pointer bytes, or with the same error. -/
theorem measure_struct_of_array (c : Calculator) (elem : Shape) (n : Nat) (hn : 1 ≤ n)
    (name : String) (index : Nat) (fields : List (Field Shape)) (hlength : fields.length = n)
    (htype : ∀ f ∈ fields, f.type = elem) :
    c.measure (.struct [⟨name, .array elem n, index⟩]) = c.measure (.struct fields) := by
  obtain ⟨n, rfl⟩ := Nat.exists_eq_add_of_le' hn
  rw [measure, measure, measureEach_of_alike htype, hlength, measureEach_eq_map, List.map_singleton,
    measure]
  cases he : c.measure elem with
  | error err => rfl
  | ok e => exact layOut_replicate (measure_sound he) n

def sliceFields : List (Field Shape) :=
  [⟨"a", .slice, 0⟩, ⟨"b", .slice, 1⟩, ⟨"c", .slice, 2⟩]

def hugeFields : List (Field Shape) :=
  [⟨"a", .array (.scalar .bool) (2 ^ 63), 0⟩, ⟨"b", .array (.scalar .bool) (2 ^ 63), 1⟩]

theorem measure_struct_of_array_of_slices :
    (Calculator.mk Profile.amd64p32.target true).measure (.struct sliceFields) = .ok ⟨48, 8, 36⟩ ∧
    (Calculator.mk Profile.amd64p32.target true).measure (.struct [⟨"r", .array .slice 3, 0⟩]) =
      .ok ⟨48, 8, 36⟩ ∧
    (Calculator.mk Profile.amd64p32.target true).measure (.struct hugeFields) = .error .overflow ∧
    (Calculator.mk Profile.amd64p32.target true).measure
      (.struct [⟨"r", .array (.array (.scalar .bool) (2 ^ 63)) 2, 0⟩]) = .error .overflow := by
  have hslices : (Calculator.mk Profile.amd64p32.target true).measure (.struct sliceFields) =
      .ok ⟨48, 8, 36⟩ := rfl
  have hhuge : (Calculator.mk Profile.amd64p32.target true).measure (.struct hugeFields) =
      .error .overflow := rfl
  refine ⟨hslices, ?_, hhuge, ?_⟩
  · rw [← hslices]
    exact measure_struct_of_array _ _ 3 (by decide) "r" 0 sliceFields rfl (by simp [sliceFields])
  · rw [← hhuge]
    exact measure_struct_of_array _ _ 2 (by decide) "r" 0 hugeFields rfl (by simp [hugeFields])

end Calculator

end FieldOrder
