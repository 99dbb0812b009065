import FieldOrder.Layout.Arrangement
import FieldOrder.Proofs.Layout.Measure

/-! Placing fields in order of priority. If sizes are multiples of alignments and alignments are
powers of two, nothing is lost between the fields; if moreover the fields with references are the
most strictly aligned ones, they stand in front and the one with the longest tail ends them. For
comparison, two lower bounds hold in any order: a placement ends no earlier than the sum of the
sizes, and its references no earlier than the sum of the sizes of the fields that have any, less one
tail. -/
namespace FieldOrder

namespace Footprint

def tail (f : Footprint) : Nat := f.size - f.pointerBytes

structure Leads (a b : Footprint) : Prop where
  sized : a.size ≠ 0 → b.size ≠ 0
  align_le : a.size ≠ 0 → b.align ≤ a.align
  pointers : a.size ≠ 0 → a.align = b.align → a.pointerBytes = 0 → b.pointerBytes = 0
  tail_le : a.size ≠ 0 → a.align = b.align → a.pointerBytes ≠ 0 → b.pointerBytes ≠ 0 →
    a.tail ≤ b.tail

end Footprint

namespace MeasuredField

theorem leads_of_goesFirst {a b : MeasuredField} (h : a.goesFirst b) :
    a.footprint.Leads b.footprint := by
  simp only [goesFirst, priority, compareLex, compareOn, Ordering.isLE_then_iff_and,
    Nat.isLE_compare, Nat.compare_eq_lt] at h
  obtain ⟨hsize, hrest⟩ := h
  have hle : ∀ x y : Bool, (compare x y).isLE → x = true → y = true := by decide
  have hlt : ∀ x y : Bool, compare x y = .lt → x = false := by decide
  have hsized : a.footprint.size ≠ 0 → a.hasSize = true := by simp [hasSize]
  -- a field with size is not led by the rule for those without
  have hchain (ha : a.footprint.size ≠ 0) := hrest.resolve_left fun hc => by
    simp [hlt _ _ hc] at hsized
    exact ha hsized
  refine ⟨fun ha => ?_, fun ha => (hchain ha).1, fun ha hal hap => ?_, fun ha hal hap hbp => ?_⟩
  · simpa [hasSize] using hle _ _ hsize (hsized ha)
  · have hnext := (hchain ha).2.resolve_left (by omega)
    simpa [hasNoPointers] using hle _ _ hnext.1 (by simpa [hasNoPointers] using hap)
  · have hnext := (hchain ha).2.resolve_left (by omega)
    have htail := hnext.2.resolve_left fun hc => by
      have hb : b.hasNoPointers = true := by
        revert hc
        cases a.hasNoPointers <;> cases b.hasNoPointers <;> decide
      exact hbp (by simpa [hasNoPointers] using hb)
    have hle := htail.1
    simp only [MeasuredField.tail, hasNoPointers, beq_iff_eq, hap, hbp, if_false] at hle
    exact hle

instance : Std.TransCmp priority := by
  unfold priority
  infer_instance

theorem goesFirst_trans (a b c : MeasuredField) (hab : a.goesFirst b) (hbc : b.goesFirst c) :
    a.goesFirst c :=
  Std.TransCmp.isLE_trans hab hbc

theorem goesFirst_total (a b : MeasuredField) : (a.goesFirst b || b.goesFirst a) = true := by
  have h : priority b a = (priority a b).swap := Std.OrientedCmp.eq_swap
  rw [goesFirst, goesFirst, h]
  cases priority a b <;> decide

theorem pairwise_leads (fields : List MeasuredField) :
    ((fields.mergeSort goesFirst).map (·.footprint)).Pairwise Footprint.Leads := by
  have h := List.pairwise_mergeSort goesFirst_trans goesFirst_total fields
  exact List.pairwise_map.mpr (h.imp leads_of_goesFirst)

end MeasuredField

/-- Fields that leave no room between them: in order of priority, each of a size that is a multiple
of its alignment. -/
structure Packed (t : Target) (fs : List Footprint) : Prop where
  sound : ∀ f ∈ fs, f.Sound
  align_dvd : ∀ f ∈ fs, f.align ∣ t.maxAlign
  size_dvd : ∀ f ∈ fs, f.align ∣ f.size
  leads : fs.Pairwise Footprint.Leads

theorem Packed.tail {t : Target} {f : Footprint} {fs : List Footprint} (h : Packed t (f :: fs)) :
    Packed t fs where
  sound g hg := h.sound g (by simp [hg])
  align_dvd g hg := h.align_dvd g (by simp [hg])
  size_dvd g hg := h.size_dvd g (by simp [hg])
  leads := (List.pairwise_cons.mp h.leads).2

namespace Placement

/-- The fields can go on here without padding, and none without size comes after one that has it. -/
structure Flush (p : Placement) (fs : List Footprint) : Prop where
  sized : p.offset = 0 ∨ ∀ f ∈ fs, f.size ≠ 0
  aligned : ∀ f ∈ fs, f.size ≠ 0 → f.align ∣ p.offset

variable {t : Target} {p : Placement} {f : Footprint} {fs : List Footprint}

theorem flush_empty (fs : List Footprint) : empty.Flush fs :=
  ⟨.inl rfl, fun _ _ _ => Nat.dvd_zero _⟩

theorem Flush.startOf_eq (hp : p.Flush (f :: fs)) (hf : f.Sound) : p.startOf f = p.offset := by
  cases hp.sized with
  | inl h0 => rw [startOf, h0, roundUp_zero hf.align_pos]
  | inr hsized => exact roundUp_of_dvd hf.align_pos (hp.aligned f (by simp) (hsized f (by simp)))

theorem Flush.next_offset (hp : p.Flush (f :: fs)) (hf : f.Sound) (last : Bool) :
    (p.next f last).offset = p.offset + f.size := by
  have hsize : p.sizeOf f last = f.size := by
    cases hp.sized with
    | inl h0 => simp [sizeOf, h0]
    | inr hsized => simp [sizeOf, hsized f (by simp)]
  rw [next, hp.startOf_eq hf, hsize]

theorem Flush.next (hp : p.Flush (f :: fs)) (h : Packed t (f :: fs)) (last : Bool) :
    (p.next f last).Flush fs := by
  have hf := h.sound f (by simp)
  have hleads := (List.pairwise_cons.mp h.leads).1
  by_cases h0 : f.size = 0
  · have hoffset : p.offset = 0 := hp.sized.resolve_right fun hs => hs f (by simp) h0
    have hnext : (p.next f last).offset = 0 := by rw [hp.next_offset hf, hoffset, h0]
    exact ⟨.inl hnext, fun g _ _ => hnext ▸ Nat.dvd_zero _⟩
  · refine ⟨.inr fun g hg => (hleads g hg).sized h0, fun g hg hg0 => ?_⟩
    rw [hp.next_offset hf]
    have hgf : g.align ∣ f.align := t.dvd_of_le_of_dvd_maxAlign (h.align_dvd g (by simp [hg]))
      (h.align_dvd f (by simp)) ((hleads g hg).align_le h0)
    exact Nat.dvd_add (hp.aligned g (by simp [hg]) hg0) (hgf.trans (h.size_dvd f (by simp)))

theorem Flush.nextAll_offset (hp : p.Flush fs) (h : Packed t fs) :
    (p.nextAll fs).offset = p.offset + (fs.map (·.size)).sum := by
  induction fs generalizing p with
  | nil => simp [nextAll]
  | cons f fs ih =>
    rw [nextAll, ih (hp.next h fs.isEmpty) h.tail, hp.next_offset (h.sound f (by simp))]
    simp [Nat.add_assoc]

end Placement

def pointerSizes (fs : List Footprint) : Nat :=
  ((fs.filter (·.pointerBytes ≠ 0)).map (·.size)).sum

theorem pointerSizes_cons (f : Footprint) (fs : List Footprint) :
    pointerSizes (f :: fs) = (if f.pointerBytes = 0 then 0 else f.size) + pointerSizes fs := by
  by_cases h : f.pointerBytes = 0 <;> simp [pointerSizes, h]

theorem pointerSizes_of_pointerFree {fs : List Footprint} (h : ∀ f ∈ fs, f.pointerBytes = 0) :
    pointerSizes fs = 0 := by
  induction fs with
  | nil => rfl
  | cons f fs ih => simp [pointerSizes_cons, h f (by simp), ih fun g hg => h g (by simp [hg])]

theorem pointerSizes_perm {fs gs : List Footprint} (h : gs.Perm fs) :
    pointerSizes gs = pointerSizes fs := by
  unfold pointerSizes
  exact ((h.filter _).map _).sum_eq

namespace Placement

variable {t : Target} {p : Placement} {f : Footprint} {fs : List Footprint}

theorem exists_pointerSizes_le (p : Placement) (hs : ∀ f ∈ fs, f.Sound)
    (h : ∃ f ∈ fs, f.pointerBytes ≠ 0) :
    ∃ f ∈ fs, f.pointerBytes ≠ 0 ∧
      p.offset + pointerSizes fs ≤ (p.nextAll fs).pointerEnd + f.tail := by
  induction fs generalizing p with
  | nil => simp at h
  | cons f fs ih =>
    have hf := hs f (by simp)
    rw [nextAll, pointerSizes_cons]
    by_cases hrest : ∃ g ∈ fs, g.pointerBytes ≠ 0
    · obtain ⟨g, hg, hgp, hle⟩ := ih (p.next f fs.isEmpty) (fun g hg => hs g (by simp [hg])) hrest
      have hstep := p.offset_add_size_le_next hf.align_pos fs.isEmpty
      refine ⟨g, by simp [hg], hgp, ?_⟩
      split <;> omega
    · push Not at hrest
      have hfp : f.pointerBytes ≠ 0 := by
        obtain ⟨g, hg, hgp⟩ := h
        obtain rfl | hg := List.mem_cons.mp hg
        · exact hgp
        · exact absurd (hrest g hg) hgp
      have hstart := p.offset_le_startOf hf.align_pos
      have hle := hf.pointers_le
      refine ⟨f, by simp, hfp, ?_⟩
      rw [pointerEnd_nextAll_of_pointerFree _ hrest, pointerSizes_of_pointerFree hrest]
      simp only [Placement.next, hfp, if_false, Footprint.tail]
      omega

/-- In order of priority, the references end with those of the field with the longest tail, provided
that no field with size is more strictly aligned than one with references. -/
theorem Flush.pointerEnd_le (hp : p.Flush fs) (h : Packed t fs)
    (htop : ∀ f ∈ fs, f.pointerBytes ≠ 0 → ∀ g ∈ fs, g.size ≠ 0 → g.align ≤ f.align) :
    ∀ f ∈ fs, f.pointerBytes ≠ 0 →
      (p.nextAll fs).pointerEnd + f.tail ≤ p.offset + pointerSizes fs := by
  induction fs generalizing p with
  | nil => simp
  | cons f fs ih =>
    have hf := h.sound f (by simp)
    have hleads := (List.pairwise_cons.mp h.leads).1
    have hrest := ih (hp.next h fs.isEmpty) h.tail fun g hg hgp k hk =>
      htop g (by simp [hg]) hgp k (by simp [hk])
    rw [hp.next_offset hf] at hrest
    intro g hg hgp
    rw [nextAll, pointerSizes_cons]
    -- without size there are no references, and without references none follow
    by_cases h0 : f.size = 0
    · have hfp : f.pointerBytes = 0 := by
        have := hf.pointers_le
        omega
      have hgs : g ∈ fs := (List.mem_cons.mp hg).resolve_left fun hgf => hgp (hgf ▸ hfp)
      have hle := hrest g hgs hgp
      simp only [hfp, if_true]
      omega
    by_cases hfp : f.pointerBytes = 0
    · have hgs : g ∈ fs := (List.mem_cons.mp hg).resolve_left fun hgf => hgp (hgf ▸ hfp)
      have halign : f.align = g.align :=
        le_antisymm (htop g hg hgp f (by simp) h0) ((hleads g hgs).align_le h0)
      exact absurd ((hleads g hgs).pointers h0 halign hfp) hgp
    simp only [hfp, if_false]
    by_cases hmore : ∃ k ∈ fs, k.pointerBytes ≠ 0
    · obtain ⟨k, hk, hkp⟩ := hmore
      obtain rfl | hgs := List.mem_cons.mp hg
      · have halign : g.align = k.align :=
          le_antisymm (htop k (by simp [hk]) hkp g (by simp) h0) ((hleads k hk).align_le h0)
        have htail := (hleads k hk).tail_le h0 halign hgp hkp
        have hle := hrest k hk hkp
        omega
      · have hle := hrest g hgs hgp
        omega
    · push Not at hmore
      have hgf : g = f := (List.mem_cons.mp hg).resolve_right fun hgs => hgp (hmore g hgs)
      have hle := hf.pointers_le
      subst hgf
      rw [pointerEnd_nextAll_of_pointerFree _ hmore]
      simp only [Placement.next, hgp, if_false, hp.startOf_eq hf, Footprint.tail]
      omega

end Placement

variable {t : Target} {fs gs : List Footprint}

theorem Packed.placed_size (h : Packed t fs) :
    (placed fs).size = roundUp (fs.map (·.size)).sum ((fs.map (·.align)).foldl max 1) := by
  have hoffset := (Placement.flush_empty fs).nextAll_offset h
  rw [← placed_align, placed, Placement.close, hoffset]
  simp [Placement.empty]

theorem roundUp_sum_le_placed_size (hs : ∀ f ∈ fs, f.Sound) :
    roundUp (fs.map (·.size)).sum ((fs.map (·.align)).foldl max 1) ≤ (placed fs).size := by
  have hoffset := Placement.empty.offset_add_sum_le_nextAll fun f hf => (hs f hf).align_pos
  rw [← placed_align]
  exact roundUp_mono _ (by simpa [Placement.empty] using hoffset)

theorem Packed.placed_size_le (h : Packed t fs) (hperm : gs.Perm fs) :
    (placed fs).size ≤ (placed gs).size := by
  have hs : ∀ f ∈ gs, f.Sound := fun f hf => h.sound f (hperm.subset hf)
  rw [h.placed_size, ← (hperm.map (·.size)).sum_eq, ← (hperm.map (·.align)).foldl_eq]
  exact roundUp_sum_le_placed_size hs

theorem Packed.placed_pointerBytes_le (h : Packed t fs)
    (htop : ∀ f ∈ fs, f.pointerBytes ≠ 0 → ∀ g ∈ fs, g.size ≠ 0 → g.align ≤ f.align)
    (hperm : gs.Perm fs) : (placed fs).pointerBytes ≤ (placed gs).pointerBytes := by
  have hs : ∀ f ∈ gs, f.Sound := fun f hf => h.sound f (hperm.subset hf)
  by_cases hsome : ∃ f ∈ gs, f.pointerBytes ≠ 0
  · obtain ⟨f, hf, hfp, hge⟩ := Placement.empty.exists_pointerSizes_le hs hsome
    have hle := (Placement.flush_empty fs).pointerEnd_le h htop f (hperm.subset hf) hfp
    have hsum := pointerSizes_perm hperm
    simp only [placed, Placement.close]
    omega
  · push Not at hsome
    have hnone := Placement.empty.pointerEnd_nextAll_of_pointerFree fun f hf =>
      hsome f (hperm.symm.subset hf)
    exact hnone.le.trans (Nat.zero_le _)

end FieldOrder
