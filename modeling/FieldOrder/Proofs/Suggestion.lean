import FieldOrder.Proofs.Finding
import Mathlib.Data.List.Nodup

/-!
The suggested order as a normal form. Fields are put in order of priority and ties keep the order
they come in, so the fields of one struct end in one order whichever way they are declared; and a
struct that is declared in that order is left as it is, whatever the target.
-/
namespace FieldOrder

/-! ### Ties -/

namespace Footprint

variable {a b : Footprint}

/-- The priority as far as footprints decide it. Tails are compared if the first of the two has
references; where this rule is reached the other one has some, too. -/
def rank (a b : Footprint) : Ordering :=
  (compare (a.size != 0) (b.size != 0)).then <|
  (compare b.align a.align).then <|
  (compare (a.pointerBytes == 0) (b.pointerBytes == 0)).then <|
  (if a.pointerBytes = 0 then .eq else compare a.tail b.tail).then <|
  compare b.size a.size

theorem eq_of_rank (ha : a.Sound) (hb : b.Sound) (h : a.rank b = .eq) : a = b := by
  simp only [rank, Ordering.then_eq_eq, Nat.compare_eq_eq] at h
  obtain ⟨-, halign, hpointers, htail, hsize⟩ := h
  have hale := ha.pointers_le
  have hble := hb.pointers_le
  have hnone : (a.pointerBytes == 0) = (b.pointerBytes == 0) :=
    Std.LawfulEqCmp.eq_of_compare hpointers
  have hsame : a.pointerBytes = b.pointerBytes := by
    by_cases h0 : a.pointerBytes = 0
    · have hb0 : b.pointerBytes = 0 := by simpa [h0] using hnone.symm
      rw [h0, hb0]
    · rw [if_neg h0, Nat.compare_eq_eq, tail, tail] at htail
      have hb0 : b.pointerBytes ≠ 0 := by simpa [h0] using hnone
      omega
  cases a
  cases b
  simp_all

end Footprint

namespace MeasuredField

theorem tail_rule (a b : MeasuredField) (rest : Ordering) :
    (compare a.hasNoPointers b.hasNoPointers).then ((compare a.tail b.tail).then rest) =
      (compare (a.footprint.pointerBytes == 0) (b.footprint.pointerBytes == 0)).then
        ((if a.footprint.pointerBytes = 0 then .eq
          else compare a.footprint.tail b.footprint.tail).then rest) := by
  have hgt : compare true false = .gt := rfl
  have hlt : compare false true = .lt := rfl
  by_cases ha : a.footprint.pointerBytes = 0 <;> by_cases hb : b.footprint.pointerBytes = 0
  · simp [hasNoPointers, MeasuredField.tail, ha, hb]
  · simp [hasNoPointers, ha, beq_false_of_ne hb, hgt]
  · simp [hasNoPointers, beq_false_of_ne ha, hb, hlt]
  · simp [hasNoPointers, MeasuredField.tail, Footprint.tail, ha, hb]

theorem priority_eq (a b : MeasuredField) :
    priority a b = (a.footprint.rank b.footprint).then (compare a.field.index b.field.index) := by
  simp only [priority, compareLex, compareOn, tail_rule, Footprint.rank, Ordering.then_assoc]
  rfl

end MeasuredField

/-- Of fields with the same index the priority is the rank of their footprints, so that the rank
inherits its laws. -/
theorem Footprint.rank_antisymm {a b : Footprint} (hab : (a.rank b).isLE) (hba : (b.rank a).isLE) :
    a.rank b = .eq := by
  have hpriority (x y : Footprint) :
      MeasuredField.priority ⟨⟨"", .string, 0⟩, x⟩ ⟨⟨"", .string, 0⟩, y⟩ = x.rank y := by
    simp [MeasuredField.priority_eq]
  rw [← hpriority] at hab hba ⊢
  exact Std.OrientedCmp.isLE_antisymm hab hba

namespace Calculator

variable {c : Calculator} {fields q r : List (Field Shape)} {f g : Field Shape} {m : Footprint}
  {a : Arrangement}

def ranked (c : Calculator) (f : Field Shape) : MeasuredField := ⟨f, c.footprintOf f⟩

def precedence (c : Calculator) (f g : Field Shape) : Ordering :=
  (c.ranked f).priority (c.ranked g)

def InOrder (c : Calculator) (fields : List (Field Shape)) : Prop :=
  fields.Pairwise fun f g => c.precedence f g ≠ .gt

theorem goesFirst_iff : (c.ranked f).goesFirst (c.ranked g) = true ↔ c.precedence f g ≠ .gt :=
  Ordering.isLE_iff_ne_gt

theorem precedence_ne_gt : c.precedence f g ≠ .gt ↔
    ((c.footprintOf f).rank (c.footprintOf g)).isLE ∧
      ((c.footprintOf f).rank (c.footprintOf g) = .lt ∨ f.index ≤ g.index) := by
  rw [← goesFirst_iff, MeasuredField.goesFirst, MeasuredField.priority_eq,
    Ordering.isLE_then_iff_and, Nat.isLE_compare]
  rfl

theorem index_eq_of_precedence (hfg : c.precedence f g ≠ .gt) (hgf : c.precedence g f ≠ .gt) :
    f.index = g.index := by
  rw [← goesFirst_iff, MeasuredField.goesFirst] at hfg hgf
  have heq := Std.OrientedCmp.isLE_antisymm hfg hgf
  rw [MeasuredField.priority_eq, Ordering.then_eq_eq, Nat.compare_eq_eq] at heq
  exact heq.2

theorem precedence_trans_eq {h : Field Shape} (hg : c.precedence f g = .eq)
    (hh : c.precedence f h = .eq) : c.precedence g h = .eq := by
  rw [precedence] at hg hh ⊢
  exact Std.TransCmp.eq_trans (Std.OrientedCmp.eq_symm hg) hh

/-! ### Sorting -/

theorem ordered_eq_mergeSort (c : Calculator) (fields : List (Field Shape)) :
    c.ordered fields = fields.mergeSort fun f g => (c.ranked f).goesFirst (c.ranked g) := by
  have hsort : (fields.mergeSort fun f g => (c.ranked f).goesFirst (c.ranked g)).map c.ranked =
      (fields.map c.ranked).mergeSort MeasuredField.goesFirst :=
    List.map_mergeSort fun _ _ _ _ => rfl
  calc c.ordered fields = ((fields.map c.ranked).mergeSort MeasuredField.goesFirst).map (·.field) :=
    rfl
    _ = (fields.mergeSort fun f g => (c.ranked f).goesFirst (c.ranked g)).map id := by
      rw [← hsort, List.map_map]
      rfl
    _ = _ := List.map_id _

theorem inOrder_ordered (c : Calculator) (fields : List (Field Shape)) :
    c.InOrder (c.ordered fields) := by
  rw [ordered_eq_mergeSort]
  have hsorted := List.pairwise_mergeSort
    (fun f g h => MeasuredField.goesFirst_trans (c.ranked f) (c.ranked g) (c.ranked h))
    (fun f g => MeasuredField.goesFirst_total (c.ranked f) (c.ranked g)) fields
  exact hsorted.imp goesFirst_iff.mp

theorem InOrder.ordered_eq (h : c.InOrder fields) : c.ordered fields = fields := by
  rw [ordered_eq_mergeSort]
  exact List.mergeSort_of_pairwise (h.imp goesFirst_iff.mpr)

theorem filter_ordered (c : Calculator) (fields : List (Field Shape)) (f : Field Shape) :
    (c.ordered fields).filter (c.precedence f · = .eq) =
      fields.filter (c.precedence f · = .eq) := by
  have hties : (fields.filter (c.precedence f · = .eq)).Pairwise
      fun g h => (c.ranked g).goesFirst (c.ranked h) = true := by
    refine List.pairwise_filter.mpr (List.pairwise_of_forall fun g h hg hh => ?_)
    have heq := precedence_trans_eq (of_decide_eq_true hg) (of_decide_eq_true hh)
    exact goesFirst_iff.mpr (by simp [heq])
  -- the ties are a sorted part of what is sorted, so that they are found in the result
  have hsub : (fields.filter (c.precedence f · = .eq)).Sublist (c.ordered fields) := by
    rw [ordered_eq_mergeSort]
    exact List.sublist_mergeSort
      (fun f g h => MeasuredField.goesFirst_trans (c.ranked f) (c.ranked g) (c.ranked h))
      (fun f g => MeasuredField.goesFirst_total (c.ranked f) (c.ranked g)) hties
      List.filter_sublist
  have hfilter := hsub.filter (c.precedence f · = .eq)
  rw [List.filter_filter] at hfilter
  simp only [Bool.and_self] at hfilter
  refine (hfilter.eq_of_length ?_).symm
  exact ((c.ordered_perm fields).filter _).length_eq.symm

/-! ### Declaring the suggested order -/

theorem InOrder.arrange_eq (h : c.InOrder fields) (hm : c.measureStruct fields = .ok m) :
    c.arrange fields = .ok ⟨fields, m.layout⟩ := by
  refine arrange_eq_ok.mpr ⟨measurable_of_measureStruct hm, h.ordered_eq.symm, m, ?_, rfl⟩
  rw [h.ordered_eq, hm]

theorem InOrder.inspect_eq (h : c.InOrder fields) (hm : c.measureStruct fields = .ok m) {ρ : Type}
    (position : ρ) : c.inspect (.struct fields) position = .ok [] := by
  refine inspect_struct_eq_ok.mpr ⟨m, _, hm, h.arrange_eq hm, ?_⟩
  simp [findingsBetween]

def renumbered (fields : List (Field Shape)) : List (Field Shape) :=
  fields.zipIdx.map fun (f, i) => { f with index := i }

theorem ofFields_eq_struct_renumbered (fields : List (Field Shape)) :
    Shape.ofFields (fields.map fun f => (f.name, f.type)) = .struct (renumbered fields) := by
  rw [Shape.ofFields, renumbered, ← List.map_zipIdx, List.map_map]
  rfl

theorem measureStruct_renumbered (c : Calculator) (fields : List (Field Shape)) :
    c.measureStruct (renumbered fields) = c.measureStruct fields := by
  have htypes : (renumbered fields).map (fun f => c.measure f.type) =
      (fields.zipIdx.map (·.1)).map fun f => c.measure f.type := by
    rw [renumbered, List.map_map, List.map_map]
    rfl
  rw [measureStruct, measureStruct, measureEach_eq_map, measureEach_eq_map, htypes,
    List.zipIdx_map_fst]

theorem InOrder.renumbered (h : c.InOrder fields) : c.InOrder (renumbered fields) := by
  rw [InOrder, Calculator.renumbered, List.pairwise_map, List.pairwise_iff_getElem]
  intro i j hi hj hij
  rw [List.length_zipIdx] at hi hj
  have hrank := precedence_ne_gt.mp (List.pairwise_iff_getElem.mp h i j hi hj hij)
  rw [List.getElem_zipIdx, List.getElem_zipIdx]
  exact precedence_ne_gt.mpr ⟨hrank.1, .inr (by simpa using hij.le)⟩

/-- The suggested order is suggested again, with the layout it has, also after the fields have been
numbered anew; and a struct that is declared in this order gets no findings. -/
theorem arrange_settles (c : Calculator) (fields : List (Field Shape)) (a : Arrangement)
    (h : c.arrange fields = .ok a) :
    c.arrange a.fields = .ok a ∧
    c.arrange (renumbered a.fields) = .ok ⟨renumbered a.fields, a.layout⟩ ∧
    ∀ (ρ : Type) (position : ρ),
      c.inspect (.struct a.fields) position = .ok [] ∧
      c.inspect (Shape.ofFields (a.fields.map fun f => (f.name, f.type))) position = .ok [] := by
  obtain ⟨-, hfields, m, hm, hlayout⟩ := arrange_eq_ok.mp h
  have horder : c.InOrder a.fields := hfields ▸ c.inOrder_ordered fields
  have hdeclared : c.measureStruct a.fields = .ok m := hfields ▸ hm
  have hrenumbered : c.measureStruct (renumbered a.fields) = .ok m := by
    rw [measureStruct_renumbered, hdeclared]
  refine ⟨?_, ?_, fun ρ position => ⟨horder.inspect_eq hdeclared position, ?_⟩⟩
  · rw [horder.arrange_eq hdeclared, ← hlayout]
  · rw [horder.renumbered.arrange_eq hrenumbered, ← hlayout]
  · rw [ofFields_eq_struct_renumbered]
    exact horder.renumbered.inspect_eq hrenumbered position

def shuffledFields : List (Field Shape) :=
  [⟨"a", .scalar .bool, 1⟩, ⟨"s", .slice, 0⟩, ⟨"n", .scalar (.int .w64), 1⟩,
    ⟨"b", .scalar .bool, 1⟩, ⟨"z", .struct [], 4⟩]

theorem arrange_shuffled : (Calculator.mk Profile.amd64p32.target true).arrange shuffledFields =
    .ok ⟨[⟨"z", .struct [], 4⟩, ⟨"s", .slice, 0⟩, ⟨"n", .scalar (.int .w64), 1⟩,
      ⟨"a", .scalar .bool, 1⟩, ⟨"b", .scalar .bool, 1⟩], ⟨32, 4⟩⟩ := by
  cbv

theorem arrange_settles_of_shuffled :
    ∃ a, (Calculator.mk Profile.amd64p32.target true).arrange shuffledFields = .ok a ∧
      a.names = ["z", "s", "n", "a", "b"] ∧
      (Calculator.mk Profile.amd64p32.target true).arrange a.fields = .ok a ∧
      (Calculator.mk Profile.amd64p32.target true).inspect
        (Shape.ofFields (a.fields.map fun f => (f.name, f.type))) () = .ok [] := by
  obtain ⟨hagain, -, hsilent⟩ := arrange_settles _ _ _ arrange_shuffled
  exact ⟨_, arrange_shuffled, rfl, hagain, (hsilent Unit ()).2⟩

/-! ### Declaring the fields in another order -/

section Perm

variable (h : q.Perm r)
include h

theorem ordered_perm_ordered : (c.ordered q).Perm (c.ordered r) :=
  (c.ordered_perm q).trans (h.trans (c.ordered_perm r).symm)

theorem map_footprintOf_ordered_of_perm (hq : c.Measurable q) :
    (c.ordered q).map c.footprintOf = (c.ordered r).map c.footprintOf := by
  have hsorted (fields : List (Field Shape)) : ((c.ordered fields).map c.footprintOf).Pairwise
      fun x y => (x.rank y).isLE = true :=
    List.pairwise_map.mpr ((c.inOrder_ordered fields).imp fun hfg => (precedence_ne_gt.mp hfg).1)
  have hx := (hq.perm (c.ordered_perm q)).sound
  have hy := (hq.perm ((c.ordered_perm r).trans h.symm)).sound
  refine List.Perm.eq_of_pairwise (fun x y hxmem hymem hxy hyx => ?_) (hsorted q) (hsorted r)
    ((ordered_perm_ordered h).map _)
  exact Footprint.eq_of_rank (hx x hxmem) (hy y hymem) (Footprint.rank_antisymm hxy hyx)

theorem ordered_eq_of_perm (hindex : (q.map (·.index)).Nodup) : c.ordered q = c.ordered r := by
  refine List.Perm.eq_of_pairwise (fun f g hf hg hfg hgf => ?_) (c.inOrder_ordered q)
    (c.inOrder_ordered r) (ordered_perm_ordered h)
  have hfq : f ∈ q := (c.ordered_perm q).subset hf
  have hgq : g ∈ q := h.symm.subset ((c.ordered_perm r).subset hg)
  exact List.inj_on_of_nodup_map hindex hfq hgq (index_eq_of_precedence hfg hgf)

theorem arrange_of_perm (ha : c.arrange q = .ok a) :
    c.arrange r = .ok ⟨c.ordered r, a.layout⟩ := by
  obtain ⟨hq, -, m, hm, hlayout⟩ := arrange_eq_ok.mp ha
  have hr : c.Measurable r := hq.perm h.symm
  have hplaced := (hq.perm (c.ordered_perm q)).measureStruct_eq_ok.mp hm
  rw [map_footprintOf_ordered_of_perm h hq] at hplaced
  have hlaid := (hr.perm (c.ordered_perm r)).measureStruct_eq_ok.mpr hplaced
  exact arrange_eq_ok.mpr ⟨hr, rfl, m, hlaid, hlayout⟩

end Perm

/-- The suggestion is the fields in order of priority, with ties in the order they come in. Fields
that come in another order are arranged if these are, in the same layout, and in the same order if
their indices are all different. -/
theorem arrange_normal (c : Calculator) (fields : List (Field Shape)) :
    (∀ a, c.arrange fields = .ok a →
      a.fields.Perm fields ∧
      (∀ f ∈ fields, c.measure f.type = .ok (c.footprintOf f)) ∧
      (a.fields.Pairwise fun f g => c.precedence f g ≠ .gt) ∧
      ∀ f ∈ fields, a.fields.filter (c.precedence f · = .eq) =
        fields.filter (c.precedence f · = .eq)) ∧
    ∀ q r : List (Field Shape), q.Perm fields → r.Perm fields →
      ((∃ a, c.arrange q = .ok a) ↔ ∃ b, c.arrange r = .ok b) ∧
      ∀ a b, c.arrange q = .ok a → c.arrange r = .ok b →
        a.layout = b.layout ∧ ((fields.map (·.index)).Nodup → a.fields = b.fields) := by
  refine ⟨fun a ha => ?_, fun q r hq hr => ⟨⟨?_, ?_⟩, fun a b ha hb => ⟨?_, fun hindex => ?_⟩⟩⟩
  · obtain ⟨hmeasurable, hfields, -⟩ := arrange_eq_ok.mp ha
    rw [hfields]
    exact ⟨c.ordered_perm fields, hmeasurable, c.inOrder_ordered fields,
      fun f _ => c.filter_ordered fields f⟩
  · intro h
    obtain ⟨a, ha⟩ := h
    exact ⟨_, arrange_of_perm (hq.trans hr.symm) ha⟩
  · intro h
    obtain ⟨b, hb⟩ := h
    exact ⟨_, arrange_of_perm (hr.trans hq.symm) hb⟩
  · have hb' := arrange_of_perm (hq.trans hr.symm) ha
    cases hb.symm.trans hb'
    rfl
  · have hq' : (q.map (·.index)).Nodup := (hq.map _).nodup_iff.mpr hindex
    rw [(arrange_eq_ok.mp ha).2.1, (arrange_eq_ok.mp hb).2.1]
    exact ordered_eq_of_perm (hq.trans hr.symm) hq'

theorem arrange_normal_of_reversed :
    (∃ a, (Calculator.mk Profile.amd64p32.target true).arrange shuffledFields = .ok a ∧
      a.fields.Pairwise fun f g =>
        (Calculator.mk Profile.amd64p32.target true).precedence f g ≠ .gt) ∧
    ∃ a, (Calculator.mk Profile.amd64.target true).arrange paddedFields = .ok a ∧
      (Calculator.mk Profile.amd64.target true).arrange paddedFields.reverse = .ok a ∧
      a.names = ["b", "a", "c"] := by
  have hpadded : (Calculator.mk Profile.amd64.target true).arrange paddedFields =
      .ok ⟨[⟨"b", .scalar (.int .w64), 1⟩, ⟨"a", .scalar .bool, 0⟩, ⟨"c", .scalar .bool, 2⟩],
        ⟨16, 0⟩⟩ := by cbv
  have hsorted := (arrange_normal ⟨Profile.amd64p32.target, true⟩ shuffledFields).1 _
    arrange_shuffled
  obtain ⟨hboth, hsame⟩ := (arrange_normal ⟨Profile.amd64.target, true⟩ paddedFields).2 _ _
    (.refl _) paddedFields.reverse_perm
  obtain ⟨b, hb⟩ := hboth.mp ⟨_, hpadded⟩
  obtain ⟨hlayout, hfields⟩ := hsame _ _ hpadded hb
  cases b
  cases hlayout
  cases hfields (by decide)
  exact ⟨⟨_, arrange_shuffled, hsorted.2.2.1⟩, _, hpadded, hb, rfl⟩

end Calculator

end FieldOrder
