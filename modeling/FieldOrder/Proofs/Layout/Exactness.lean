import FieldOrder.Proofs.Layout.Measure

/-!
Measuring against the measure without limit. What can be measured has exactly the footprint that
unbounded numbers give, and what cannot be measured contains an unresolved type or overflows. Where
the largest alignment does not exceed the word, sizes are multiples of alignments, so that no
intermediate result exceeds the size it leads to: then a type overflows only if one of its parts is
too large itself.
-/
namespace FieldOrder

/-! ### Errors -/

def OnlyOverflows {α : Type} (x : Except LayoutError α) : Prop :=
  ∀ e, x = .error e → e = .overflow

section OnlyOverflows

variable {α β : Type}

theorem onlyOverflows_ok (a : α) : OnlyOverflows (.ok a) := by
  intro e h
  cases h

theorem onlyOverflows_fit (n : Nat) : OnlyOverflows (fit n) := by
  intro e h
  unfold fit at h
  split at h
  · cases h
  · cases h
    rfl

theorem OnlyOverflows.bind {x : Except LayoutError α} {f : α → Except LayoutError β}
    (hx : OnlyOverflows x) (hf : ∀ a, OnlyOverflows (f a)) : OnlyOverflows (x >>= f) := by
  intro e h
  rw [bind_eq_error] at h
  obtain h | ⟨a, -, h⟩ := h
  · exact hx e h
  · exact hf a e h

theorem OnlyOverflows.ite {p : Prop} [Decidable p] {x y : Except LayoutError α}
    (hx : OnlyOverflows x) (hy : OnlyOverflows y) : OnlyOverflows (if p then x else y) := by
  split
  · exact hx
  · exact hy

theorem OnlyOverflows.ext {x y : Except LayoutError α} (hx : OnlyOverflows x) (hy : OnlyOverflows y)
    (h : ∀ a, x = .ok a ↔ y = .ok a) : x = y := by
  cases x with
  | ok a => exact ((h a).mp rfl).symm
  | error e =>
    cases y with
    | ok b => exact absurd ((h b).mpr rfl) (by simp)
    | error e' => rw [hx e rfl, hy e' rfl]

end OnlyOverflows

theorem Footprint.onlyOverflows_replicate (e : Footprint) (n : Nat) :
    OnlyOverflows (e.replicate n) := by
  cases n with
  | zero => exact onlyOverflows_ok _
  | succ n =>
    refine (onlyOverflows_fit _).bind fun stride => (onlyOverflows_fit _).bind fun last =>
      (onlyOverflows_fit _).bind fun size => ?_
    refine OnlyOverflows.ite (onlyOverflows_ok _) ?_
    exact (onlyOverflows_fit _).bind fun _ => onlyOverflows_ok _

namespace Placement

theorem onlyOverflows_add (p : Placement) (f : Footprint) (last : Bool) :
    OnlyOverflows (p.add f last) := by
  refine (onlyOverflows_fit _).bind fun start => OnlyOverflows.ite ?_ ?_
  · exact (onlyOverflows_fit _).bind fun _ => onlyOverflows_ok _
  · exact (onlyOverflows_fit _).bind fun _ => (onlyOverflows_fit _).bind fun _ => onlyOverflows_ok _

theorem onlyOverflows_finish (p : Placement) : OnlyOverflows p.finish :=
  (onlyOverflows_fit _).bind fun _ => onlyOverflows_ok _

theorem mem_of_addAll_eq_error {fields : List (Except LayoutError Footprint)} {p : Placement}
    {e : LayoutError} (h : p.addAll fields = .error e) : e = .overflow ∨ .error e ∈ fields := by
  induction fields generalizing p with
  | nil => cases h
  | cons field fields ih =>
    simp only [addAll, bind_eq_error] at h
    obtain h | ⟨f, -, h | ⟨p', -, h⟩⟩ := h
    · exact .inr (h ▸ List.mem_cons_self)
    · exact .inl (onlyOverflows_add p f _ e h)
    · exact (ih h).imp_right (List.mem_cons_of_mem field)

end Placement

theorem mem_of_layOut_eq_error {fields : List (Except LayoutError Footprint)} {e : LayoutError}
    (h : layOut fields = .error e) : e = .overflow ∨ .error e ∈ fields := by
  rw [layOut, bind_eq_error] at h
  obtain h | ⟨p, -, h⟩ := h
  · exact Placement.mem_of_addAll_eq_error h
  · exact .inl (p.onlyOverflows_finish e h)

theorem onlyOverflows_layOut (fs : List Footprint) : OnlyOverflows (layOut (fs.map .ok)) := by
  intro e h
  refine (mem_of_layOut_eq_error h).resolve_right fun hmem => ?_
  obtain ⟨f, -, hf⟩ := List.mem_map.mp hmem
  cases hf

namespace Calculator

variable {c : Calculator} {t : Shape} {f : Footprint}

theorem onlyOverflows_leaf (c : Calculator) (size pointerBytes : Nat) :
    OnlyOverflows (c.leaf size pointerBytes) :=
  (onlyOverflows_fit _).bind fun _ => onlyOverflows_ok _

theorem overflow_or_unresolved_of_measure {e : LayoutError} (h : c.measure t = .error e) :
    e = .overflow ∨ ∃ name, e = .unresolved name ∧ .unresolved name ∈ t.parts := by
  induction t generalizing e with
  | scalar _ | string | slice | pointer | interface =>
    rw [measure] at h
    exact .inl (c.onlyOverflows_leaf _ _ e h)
  | array elem n ih =>
    rw [measure, bind_eq_error] at h
    obtain h | ⟨g, -, h⟩ := h
    · refine (ih h).imp_right fun hunresolved => ?_
      obtain ⟨name, he, hmem⟩ := hunresolved
      exact ⟨name, he, Shape.mem_parts_array.mpr (.inr hmem)⟩
    · exact .inl (g.onlyOverflows_replicate n e h)
  | struct fields ih =>
    rw [measure, measureEach_eq_map] at h
    refine (mem_of_layOut_eq_error h).elim .inl fun hmem => ?_
    obtain ⟨f, hf, hfe⟩ := List.mem_map.mp hmem
    refine (ih f hf hfe).imp_right fun hunresolved => ?_
    obtain ⟨name, he, hmem⟩ := hunresolved
    exact ⟨name, he, Shape.mem_parts_struct.mpr (.inr ⟨f, hf, hmem⟩)⟩
  | unresolved name =>
    rw [measure] at h
    cases h
    exact .inr ⟨name, rfl, Shape.self_mem_parts _⟩

end Calculator

/-! ### Exact results -/

namespace Footprint

variable {e f : Footprint} {n : Nat}

theorem size_lt_of_replicate (h : e.replicate n = .ok f) : f.size < 2 ^ 64 := by
  cases n with
  | zero =>
    cases h
    exact Nat.two_pow_pos 64
  | succ n =>
    obtain ⟨rfl, -, -, hsize, -⟩ := replicate_succ_eq_ok.mp h
    exact hsize

/-- Of a footprint without a gap behind it only the whole row has to fit: its stride is its size,
and nothing in the row reaches further than the end. -/
theorem replicate_eq_ok_of_dvd (he : e.Sound) (hdvd : e.align ∣ e.size)
    (hfit : (e.repeated n).size < 2 ^ 64) : e.replicate n = .ok (e.repeated n) := by
  cases n with
  | zero => rfl
  | succ n =>
    have hstride : roundUp e.size e.align = e.size := roundUp_of_dvd he.align_pos hdvd
    have hpointers := he.pointers_le
    simp only [repeated] at hfit
    exact replicate_succ_eq_ok.mpr ⟨rfl, by omega, by omega, hfit, by omega⟩

end Footprint

namespace Calculator

variable {c : Calculator} {t : Shape} {f : Footprint}

mutual

/-- The footprint without a limit on numbers. An unresolved type has none and counts as an empty
value; the results are about types that contain no such part. -/
def ideal (c : Calculator) : Shape → Footprint
  | .scalar kind => c.leafFootprint kind.size 0
  | .string => c.leafFootprint (2 * c.target.word) c.target.word
  | .slice => c.leafFootprint (3 * c.target.word) c.target.word
  | .pointer => c.leafFootprint c.target.word c.target.word
  | .interface => c.leafFootprint (2 * c.target.word) (2 * c.target.word)
  | .array elem length => (c.ideal elem).repeated length
  | .struct fields => placed (c.idealEach fields)
  | .unresolved _ => ⟨0, 1, 0⟩

def idealEach (c : Calculator) : List (Field Shape) → List Footprint
  | [] => []
  | f :: fs => c.idealField f :: c.idealEach fs

def idealField (c : Calculator) : Field Shape → Footprint
  | ⟨_, type, _⟩ => c.ideal type

end

theorem idealEach_eq_map (c : Calculator) (fields : List (Field Shape)) :
    c.idealEach fields = fields.map fun f => c.ideal f.type := by
  induction fields with
  | nil => simp [idealEach]
  | cons f fs ih =>
    obtain ⟨name, type, index⟩ := f
    simp [idealEach, idealField, ih]

theorem eq_ideal_of_measure (h : c.measure t = .ok f) : f = c.ideal t := by
  induction t generalizing f with
  | scalar _ | string | slice | pointer | interface =>
    rw [measure, leaf_eq_ok] at h
    rw [ideal, h.1]
  | array elem n ih =>
    obtain ⟨e, he, h⟩ := measure_array_eq_ok.mp h
    rw [Footprint.eq_repeated_of_replicate h, ih he, ideal]
  | struct fields ih =>
    rw [measure] at h
    have hfields := measurable_of_measureStruct h
    obtain ⟨rfl, -⟩ := hfields.measureStruct_eq_ok.mp h
    rw [ideal, idealEach_eq_map, List.map_congr_left fun g hg => ih g hg (hfields g hg)]
  | unresolved name =>
    rw [measure] at h
    cases h

theorem size_lt_of_measure (h : c.measure t = .ok f) : f.size < 2 ^ 64 := by
  cases t with
  | scalar _ | string | slice | pointer | interface =>
    rw [measure, leaf_eq_ok] at h
    obtain ⟨rfl, h⟩ := h
    exact h
  | array elem n =>
    obtain ⟨e, -, h⟩ := measure_array_eq_ok.mp h
    exact Footprint.size_lt_of_replicate h
  | struct fields =>
    rw [measure] at h
    exact ((measurable_of_measureStruct h).measureStruct_eq_ok.mp h).2
  | unresolved name =>
    rw [measure] at h
    cases h

theorem exists_measure_of_mem_parts {s : Shape} (h : c.measure t = .ok f) (hs : s ∈ t.parts) :
    ∃ g, c.measure s = .ok g := by
  induction t generalizing f with
  | scalar _ | string | slice | pointer | interface | unresolved _ =>
    rw [Shape.parts, List.mem_singleton] at hs
    exact ⟨f, hs ▸ h⟩
  | array elem n ih =>
    obtain rfl | hs := Shape.mem_parts_array.mp hs
    · exact ⟨f, h⟩
    · obtain ⟨e, he, -⟩ := measure_array_eq_ok.mp h
      exact ih he hs
  | struct fields ih =>
    obtain rfl | ⟨g, hg, hs⟩ := Shape.mem_parts_struct.mp hs
    · exact ⟨f, h⟩
    · rw [measure] at h
      exact ih g hg (measurable_of_measureStruct h g hg) hs

theorem resolved_of_measure (h : c.measure t = .ok f) : t.Resolved := by
  refine Shape.resolved_iff.mpr fun name hname => ?_
  obtain ⟨g, hg⟩ := exists_measure_of_mem_parts h hname
  rw [measure] at hg
  cases hg

theorem measure_of_parts_fit (hc : c.target.maxAlign ≤ c.target.word) (hresolved : t.Resolved)
    (hfit : ∀ s ∈ t.parts, (c.ideal s).size < 2 ^ 64) : c.measure t = .ok (c.ideal t) := by
  have hself := hfit t t.self_mem_parts
  induction t with
  | scalar _ | string | slice | pointer | interface =>
    rw [ideal] at hself ⊢
    rw [measure, leaf_eq_ok]
    exact ⟨rfl, hself⟩
  | array elem n ih =>
    have hparts : ∀ s ∈ elem.parts, (c.ideal s).size < 2 ^ 64 :=
      fun s hs => hfit s (Shape.mem_parts_array.mpr (.inr hs))
    rw [Shape.Resolved] at hresolved
    -- an array without elements still measures them, so their own size has to fit as well
    have helem := ih hresolved hparts (hparts elem elem.self_mem_parts)
    have hdvd := (c.align_dvd_size_invariant hc).measure elem _ helem
    rw [ideal] at hself ⊢
    have hrow := Footprint.replicate_eq_ok_of_dvd (measure_sound helem) hdvd hself
    exact measure_array_eq_ok.mpr ⟨_, helem, hrow⟩
  | struct fields ih =>
    rw [Shape.Resolved, Shape.fieldsResolved_iff] at hresolved
    have hfields : ∀ f ∈ fields, c.measure f.type = .ok (c.ideal f.type) := by
      intro f hf
      have hparts : ∀ s ∈ f.type.parts, (c.ideal s).size < 2 ^ 64 :=
        fun s hs => hfit s (Shape.mem_parts_struct.mpr (.inr ⟨f, hf, hs⟩))
      exact ih f hf (hresolved f hf) hparts (hparts f.type f.type.self_mem_parts)
    have hsound : ∀ g ∈ c.idealEach fields, g.Sound := by
      intro g hg
      rw [idealEach_eq_map] at hg
      obtain ⟨f, hf, rfl⟩ := List.mem_map.mp hg
      exact measure_sound (hfields f hf)
    have heach : c.measureEach fields = (c.idealEach fields).map .ok := by
      rw [measureEach_eq_map, idealEach_eq_map, List.map_map]
      exact List.map_congr_left hfields
    rw [ideal] at hself ⊢
    rw [measure, heach]
    exact (layOut_eq_ok hsound).mpr ⟨rfl, hself⟩
  | unresolved name =>
    rw [Shape.Resolved] at hresolved
    exact hresolved.elim

/-- Measuring is exact and fails closed. A result is the one that unbounded numbers give, it fits,
and nothing unresolved is in the type; an unresolved type that is reported is in the type. Where the
largest alignment does not exceed the word, there is a result for every resolved type of which all
parts have sizes that fit. -/
theorem measure_exact (c : Calculator) (t : Shape) :
    (∀ f, c.measure t = .ok f → t.Resolved ∧ f = c.ideal t ∧
      f.size < 2 ^ 64 ∧ f.align < 2 ^ 64 ∧ f.pointerBytes < 2 ^ 64) ∧
    (∀ name, c.measure t = .error (.unresolved name) → .unresolved name ∈ t.parts) ∧
    (c.target.maxAlign ≤ c.target.word → t.Resolved →
      (∀ s ∈ t.parts, (c.ideal s).size < 2 ^ 64) → ∃ f, c.measure t = .ok f) := by
  refine ⟨fun f h => ?_, fun name h => ?_, fun hc hresolved hfit => ?_⟩
  · have hsize := size_lt_of_measure h
    have hpointers := (measure_sound h).pointers_le
    have halign := c.align_le_invariant.measure t f h
    exact ⟨resolved_of_measure h, eq_ideal_of_measure h, hsize,
      lt_of_le_of_lt halign c.target.maxAlign_lt, lt_of_le_of_lt hpointers hsize⟩
  · obtain h | ⟨_, h, hmem⟩ := overflow_or_unresolved_of_measure h
    · cases h
    · cases h
      exact hmem
  · exact ⟨_, measure_of_parts_fit hc hresolved hfit⟩

/-- The largest row of strings that fits, and an empty value behind it, which takes the last
word. -/
def fullShape : Shape :=
  .struct [⟨"a", .array .string (2 ^ 60 - 1), 0⟩, ⟨"z", .struct [], 1⟩]

def hollowShape : Shape :=
  .struct [⟨"n", .scalar (.int .w64), 0⟩, ⟨"t", .array (.unresolved "time.Time") 0, 1⟩]

theorem measure_exact_of_full :
    ((∃ f, (Calculator.mk Profile.amd64.target true).measure fullShape = .ok f) ∧
      ∀ f, (Calculator.mk Profile.amd64.target true).measure fullShape = .ok f →
        f = ⟨2 ^ 64 - 8, 8, 2 ^ 64 - 24⟩) ∧
    (Calculator.mk Profile.amd64.target true).measure hollowShape =
      .error (.unresolved "time.Time") ∧
    .unresolved "time.Time" ∈ hollowShape.parts := by
  obtain ⟨hok, -, htotal⟩ := measure_exact ⟨Profile.amd64.target, true⟩ fullShape
  have hhollow := measure_exact ⟨Profile.amd64.target, true⟩ hollowShape
  have hresolved : fullShape.Resolved := by
    simp [fullShape, Shape.Resolved, Shape.FieldsResolved]
  have herror : (Calculator.mk Profile.amd64.target true).measure hollowShape =
      .error (.unresolved "time.Time") := rfl
  refine ⟨⟨htotal (by decide) hresolved (by decide), fun f hf => ?_⟩, herror, hhollow.2.1 _ herror⟩
  exact (hok f hf).2.1.trans rfl

end Calculator

end FieldOrder
