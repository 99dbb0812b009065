import FieldOrder.Proofs.Layout.Order
import Mathlib.Data.Set.Defs

/-! No order of the fields is better than the arranged one, neither in size nor in pointer bytes, if
their sizes are multiples of their alignments and what holds references is aligned most strictly. On
targets whose largest alignment does not exceed the word, this is so for all types. -/
namespace FieldOrder

namespace Calculator

variable {c : Calculator} {fields q : List (Field Shape)} {a : Arrangement} {m : Footprint}

def ordered (c : Calculator) (fields : List (Field Shape)) : List (Field Shape) :=
  ((fields.map fun f => MeasuredField.mk f (c.footprintOf f)).mergeSort
    MeasuredField.goesFirst).map (·.field)

theorem mapM_measured_eq_ok {ms : List MeasuredField} :
    fields.mapM c.measured = .ok ms ↔
      c.Measurable fields ∧ ms = fields.map fun f => ⟨f, c.footprintOf f⟩ := by
  induction fields generalizing ms with
  | nil => simp [Measurable, pure, Except.pure, eq_comm]
  | cons f fs ih =>
    have hmeasured : ∀ x, c.measured f = .ok x ↔
        c.measure f.type = .ok (c.footprintOf f) ∧ x = ⟨f, c.footprintOf f⟩ := by
      intro x
      unfold measured footprintOf
      cases c.measure f.type with
      | error e => simp [bind, Except.bind]
      | ok m => simp [bind, Except.bind, eq_comm]
    simp only [List.mapM_cons, bind_eq_ok, hmeasured, ih, Measurable, List.forall_mem_cons,
      List.map_cons, pure, Except.pure, Except.ok.injEq]
    constructor
    · intro h
      obtain ⟨_, ⟨hf, rfl⟩, _, ⟨hfs, rfl⟩, rfl⟩ := h
      exact ⟨⟨hf, hfs⟩, rfl⟩
    · intro h
      obtain ⟨⟨hf, hfs⟩, rfl⟩ := h
      exact ⟨_, ⟨hf, rfl⟩, _, ⟨hfs, rfl⟩, rfl⟩

theorem arrange_eq_ok :
    c.arrange fields = .ok a ↔ c.Measurable fields ∧ a.fields = c.ordered fields ∧
      ∃ m, c.measureStruct (c.ordered fields) = .ok m ∧ a.layout = m.layout := by
  simp only [arrange, bind_eq_ok, mapM_measured_eq_ok, Except.ok.injEq]
  constructor
  · intro h
    obtain ⟨_, ⟨hfields, rfl⟩, m, hm, rfl⟩ := h
    exact ⟨hfields, rfl, m, hm, rfl⟩
  · intro h
    obtain ⟨hfields, ha, m, hm, hl⟩ := h
    refine ⟨_, ⟨hfields, rfl⟩, m, hm, ?_⟩
    cases a
    simp only at ha hl
    rw [ha, hl]
    rfl

theorem ordered_perm (c : Calculator) (fields : List (Field Shape)) :
    (c.ordered fields).Perm fields := by
  have h := (List.mergeSort_perm (fields.map fun f => MeasuredField.mk f (c.footprintOf f))
    MeasuredField.goesFirst).map (·.field)
  simpa [ordered, Function.comp_def] using h

theorem map_footprintOf_ordered (c : Calculator) (fields : List (Field Shape)) :
    (c.ordered fields).map c.footprintOf =
      ((fields.map fun f => MeasuredField.mk f (c.footprintOf f)).mergeSort
        MeasuredField.goesFirst).map (·.footprint) := by
  rw [ordered, List.map_map]
  refine List.map_congr_left fun x hx => ?_
  obtain ⟨f, -, rfl⟩ := List.mem_map.mp (List.mem_mergeSort.mp hx)
  rfl

theorem Measurable.packed_ordered (h : c.Measurable fields)
    (hc : c.target.maxAlign ≤ 2 * c.target.word)
    (hsize : ∀ f ∈ fields, (c.footprintOf f).align ∣ (c.footprintOf f).size) :
    Packed c.target ((c.ordered fields).map c.footprintOf) := by
  have hperm := c.ordered_perm fields
  refine ⟨(h.perm hperm).sound, fun g hg => ?_, fun g hg => ?_, ?_⟩
  · obtain ⟨f, hf, rfl⟩ := List.mem_map.mp hg
    exact measure_align_dvd hc (h f (hperm.subset hf))
  · obtain ⟨f, hf, rfl⟩ := List.mem_map.mp hg
    exact hsize f (hperm.subset hf)
  · rw [map_footprintOf_ordered]
    exact MeasuredField.pairwise_leads _

def achievable (c : Calculator) (fields : List (Field Shape)) : Set Footprint :=
  {m | ∃ q : List (Field Shape), q.Perm fields ∧ c.measureStruct q = .ok m}

theorem mem_achievable (h : c.measureStruct fields = .ok m) : m ∈ c.achievable fields :=
  ⟨fields, .refl _, h⟩

theorem measurable_of_achievable (h : m ∈ c.achievable fields) : c.Measurable fields := by
  obtain ⟨q, hq, hm⟩ := h
  exact (measurable_of_measureStruct hm).perm hq.symm

theorem achievable_of_arrange (h : c.arrange fields = .ok a) :
    ∃ m ∈ c.achievable fields, m = placed ((c.ordered fields).map c.footprintOf) ∧
      a.layout = m.layout := by
  obtain ⟨hfields, -, m, hm, hl⟩ := arrange_eq_ok.mp h
  have hperm := c.ordered_perm fields
  exact ⟨m, ⟨_, hperm, hm⟩, ((hfields.perm hperm).measureStruct_eq_ok.mp hm).1, hl⟩

theorem placed_of_achievable (h : m ∈ c.achievable fields) :
    ∃ gs : List Footprint, gs.Perm ((c.ordered fields).map c.footprintOf) ∧ m = placed gs ∧
      m.size < 2 ^ 64 := by
  obtain ⟨q, hq, hm⟩ := h
  have hplaced := (measurable_of_measureStruct hm).measureStruct_eq_ok.mp hm
  exact ⟨_, (hq.trans (c.ordered_perm fields).symm).map _, hplaced⟩

/-- Fields that can be packed are arranged if they can be laid out in any order at all. -/
theorem exists_arrange (hpacked : Packed c.target ((c.ordered fields).map c.footprintOf))
    (hm : m ∈ c.achievable fields) : ∃ a, c.arrange fields = .ok a := by
  have hfields := measurable_of_achievable hm
  obtain ⟨gs, hgs, rfl, hfit⟩ := placed_of_achievable hm
  have hordered := (hfields.perm (c.ordered_perm fields)).measureStruct_eq_ok.mpr
    ⟨rfl, lt_of_le_of_lt (hpacked.placed_size_le hgs) hfit⟩
  exact ⟨⟨_, _⟩, arrange_eq_ok.mpr ⟨hfields, rfl, _, hordered, rfl⟩⟩

theorem arrange_size_le (hpacked : Packed c.target ((c.ordered fields).map c.footprintOf))
    (ha : c.arrange fields = .ok a) (hm : m ∈ c.achievable fields) : a.layout.size ≤ m.size := by
  obtain ⟨_, -, rfl, hl⟩ := achievable_of_arrange ha
  obtain ⟨gs, hgs, rfl, -⟩ := placed_of_achievable hm
  rw [hl]
  exact hpacked.placed_size_le hgs

theorem arrange_pointerBytes_le (hpacked : Packed c.target ((c.ordered fields).map c.footprintOf))
    (htop : ∀ f ∈ fields, (c.footprintOf f).pointerBytes ≠ 0 →
      ∀ g ∈ fields, (c.footprintOf g).size ≠ 0 → (c.footprintOf g).align ≤ (c.footprintOf f).align)
    (ha : c.arrange fields = .ok a) (hm : m ∈ c.achievable fields) :
    a.layout.pointerBytes ≤ m.pointerBytes := by
  obtain ⟨_, -, rfl, hl⟩ := achievable_of_arrange ha
  obtain ⟨gs, hgs, rfl, -⟩ := placed_of_achievable hm
  have hperm := c.ordered_perm fields
  rw [hl]
  refine hpacked.placed_pointerBytes_le (fun x hx hxp y hy hys => ?_) hgs
  obtain ⟨f, hf, rfl⟩ := List.mem_map.mp hx
  obtain ⟨g, hg, rfl⟩ := List.mem_map.mp hy
  exact htop f (hperm.subset hf) hxp g (hperm.subset hg) hys

section WideWord

variable (hc : c.target.maxAlign ≤ c.target.word)
include hc

theorem Measurable.packed (h : c.Measurable fields) :
    Packed c.target ((c.ordered fields).map c.footprintOf) :=
  h.packed_ordered (by omega) fun f hf => (c.align_dvd_size_invariant hc).measure _ _ (h f hf)

theorem Measurable.pointers_on_top (h : c.Measurable fields) :
    ∀ f ∈ fields, (c.footprintOf f).pointerBytes ≠ 0 →
      ∀ g ∈ fields, (c.footprintOf g).size ≠ 0 →
        (c.footprintOf g).align ≤ (c.footprintOf f).align := by
  intro f hf hfp g hg _
  have hf' := (c.pointers_align_invariant hc).measure _ _ (h f hf)
  have hg' := (c.pointers_align_invariant hc).measure _ _ (h g hg)
  rw [hf'.2 hfp]
  exact Nat.le_of_dvd c.target.maxAlign_pos hg'.1

end WideWord

end Calculator

end FieldOrder
