import FieldOrder.Proofs.Layout.Optimality
import Mathlib.Order.Bounds.Defs

/-!
Where the fields of a struct stand. Placing the fields gives each of them a slot; the slots follow
one another without overlap and with no more padding than alignment asks for, and all lie inside the
struct. The byte that a last field without size takes keeps the start of every such field inside,
since no field starts behind the last one.
-/
namespace FieldOrder

theorem isLeast_roundUp (x : Nat) {a : Nat} (ha : 0 < a) :
    IsLeast {y | a ∣ y ∧ x ≤ y} (roundUp x a) := by
  refine ⟨⟨dvd_roundUp x a, le_roundUp x ha⟩, fun y hy => ?_⟩
  obtain ⟨hdvd, hle⟩ := hy
  rw [← roundUp_of_dvd ha hdvd]
  exact roundUp_mono a hle

theorem roundUp_eq_zero {x a : Nat} (ha : 0 < a) : roundUp x a = 0 ↔ x = 0 := by
  constructor
  · intro h
    have hle := le_roundUp x ha
    omega
  · intro h
    rw [h, roundUp_zero ha]

structure Slot extends MeasuredField where
  start : Nat

namespace Slot

def stop (s : Slot) : Nat := s.start + s.footprint.size

/-- Each field starts at the least multiple of its alignment that is not below the end of the field
before it, and the first one at the least that is not below the given offset. -/
def Chain : Nat → List Slot → Prop
  | _, [] => True
  | offset, s :: ss => IsLeast {x | s.footprint.align ∣ x ∧ offset ≤ x} s.start ∧ Chain s.stop ss

variable {offset : Nat} {ss : List Slot}

theorem Chain.le_start (h : Chain offset ss) : ∀ s ∈ ss, offset ≤ s.start := by
  induction ss generalizing offset with
  | nil => simp
  | cons s ss ih =>
    have hhead : offset ≤ s.start := h.1.1.2
    refine List.forall_mem_cons.mpr ⟨hhead, fun r hr => ?_⟩
    have hstop : s.stop ≤ r.start := ih h.2 r hr
    unfold stop at hstop
    omega

theorem Chain.pairwise (h : Chain offset ss) : ss.Pairwise fun a b => a.stop ≤ b.start := by
  induction ss generalizing offset with
  | nil => exact .nil
  | cons s ss ih => exact .cons h.2.le_start (ih h.2)

theorem Chain.align_dvd_start (h : Chain offset ss) : ∀ s ∈ ss, s.footprint.align ∣ s.start := by
  induction ss generalizing offset with
  | nil => simp
  | cons s ss ih => exact List.forall_mem_cons.mpr ⟨h.1.1.1, ih h.2⟩

end Slot

namespace Placement

def slots (p : Placement) : List MeasuredField → Except LayoutError (List Slot)
  | [] => .ok []
  | m :: ms => do
    let start ← fit (roundUp p.offset m.footprint.align)
    let q ← p.add m.footprint ms.isEmpty
    .ok (⟨m, start⟩ :: (← q.slots ms))

variable {p q : Placement} {m : MeasuredField} {ms : List MeasuredField} {ss : List Slot}

theorem slots_of_cons (h : p.slots (m :: ms) = .ok ss) :
    ∃ rest, (p.next m.footprint ms.isEmpty).slots ms = .ok rest ∧
      ss = ⟨m, p.startOf m.footprint⟩ :: rest := by
  simp only [slots, bind_eq_ok, fit_eq_ok, add_eq_ok_iff, Except.ok.injEq] at h
  obtain ⟨_, ⟨rfl, -⟩, _, ⟨rfl, -⟩, rest, hrest, rfl⟩ := h
  exact ⟨rest, hrest, rfl⟩

theorem exists_slots (h : p.addAll (ms.map fun m => .ok m.footprint) = .ok q) :
    ∃ ss, p.slots ms = .ok ss := by
  induction ms generalizing p with
  | nil => exact ⟨[], rfl⟩
  | cons m ms ih =>
    simp only [List.map_cons, addAll, bind_eq_ok, Except.ok.injEq, exists_eq_left',
      List.isEmpty_map] at h
    obtain ⟨p', hadd, h⟩ := h
    obtain ⟨rest, hrest⟩ := ih h
    have hstart := ((add_eq_ok_iff p p' m.footprint ms.isEmpty).mp hadd).2.1
    refine ⟨⟨m, p.startOf m.footprint⟩ :: rest, ?_⟩
    simp only [slots, bind_eq_ok, fit_eq_ok, Except.ok.injEq]
    exact ⟨_, ⟨rfl, hstart⟩, p', hadd, rest, hrest, rfl⟩

theorem map_slots (h : p.slots ms = .ok ss) : ss.map (·.toMeasuredField) = ms := by
  induction ms generalizing p ss with
  | nil =>
    cases h
    rfl
  | cons m ms ih =>
    obtain ⟨rest, hrest, rfl⟩ := slots_of_cons h
    rw [List.map_cons, ih hrest]

theorem startOf_lt_next_of_last {f : Footprint} (hf : 0 < f.align)
    (hpos : 0 < (p.next f true).offset) : p.startOf f < (p.next f true).offset := by
  have hnext : (p.next f true).offset = p.startOf f + p.sizeOf f true := rfl
  by_cases h0 : f.size = 0
  · by_cases hoffset : p.offset = 0
    · rwa [startOf, hoffset, roundUp_zero hf]
    · have hsize : p.sizeOf f true = 1 := by simp [sizeOf, h0, hoffset]
      omega
  · have hsize := p.size_le_sizeOf f true
    omega

theorem nextAll_offset_eq_zero {fs : List Footprint} (hs : ∀ f ∈ fs, 0 < f.align)
    (h0 : ∀ f ∈ fs, f.size = 0) (hp : p.offset = 0) : (p.nextAll fs).offset = 0 := by
  induction fs generalizing p with
  | nil => exact hp
  | cons f fs ih =>
    obtain ⟨hf, hfs⟩ := List.forall_mem_cons.mp hs
    obtain ⟨hf0, hfs0⟩ := List.forall_mem_cons.mp h0
    refine ih hfs hfs0 ?_
    simp [next, startOf, sizeOf, hp, hf0, roundUp_zero hf]

section Positive

variable (hs : ∀ m ∈ ms, 0 < m.footprint.align)
include hs

theorem chain_slots (h : p.slots ms = .ok ss) : Slot.Chain p.offset ss := by
  induction ms generalizing p ss with
  | nil =>
    cases h
    trivial
  | cons m ms ih =>
    obtain ⟨hm, hms⟩ := List.forall_mem_cons.mp hs
    obtain ⟨rest, hrest, rfl⟩ := slots_of_cons h
    refine ⟨isLeast_roundUp p.offset hm, ?_⟩
    -- only the last field can take more than its size, and nothing follows that one
    cases ms with
    | nil =>
      cases hrest
      trivial
    | cons m' ms => simpa [next, sizeOf, Slot.stop] using ih hms hrest

theorem offset_le_nextAll (p : Placement) :
    p.offset ≤ (p.nextAll (ms.map (·.footprint))).offset := by
  have h := p.offset_add_sum_le_nextAll (List.forall_mem_map.mpr hs)
  exact (Nat.le_add_right _ _).trans h

theorem stop_le_nextAll (h : p.slots ms = .ok ss) :
    ∀ s ∈ ss, s.stop ≤ (p.nextAll (ms.map (·.footprint))).offset := by
  induction ms generalizing p ss with
  | nil =>
    cases h
    simp
  | cons m ms ih =>
    obtain ⟨hm, hms⟩ := List.forall_mem_cons.mp hs
    obtain ⟨rest, hrest, rfl⟩ := slots_of_cons h
    rw [List.map_cons, nextAll, List.isEmpty_map]
    refine List.forall_mem_cons.mpr ⟨?_, ih hms hrest⟩
    have hsize := p.size_le_sizeOf m.footprint ms.isEmpty
    calc p.startOf m.footprint + m.footprint.size
        ≤ (p.next m.footprint ms.isEmpty).offset := Nat.add_le_add_left hsize _
      _ ≤ _ := offset_le_nextAll hms _

/-- No field starts behind the last one, and this one takes at least a byte unless all of the
placement is empty. -/
theorem start_lt_nextAll (h : p.slots ms = .ok ss)
    (hpos : 0 < (p.nextAll (ms.map (·.footprint))).offset) :
    ∀ s ∈ ss, s.start < (p.nextAll (ms.map (·.footprint))).offset := by
  induction ms generalizing p ss with
  | nil =>
    cases h
    simp
  | cons m ms ih =>
    obtain ⟨hm, hms⟩ := List.forall_mem_cons.mp hs
    obtain ⟨rest, hrest, rfl⟩ := slots_of_cons h
    rw [List.map_cons, nextAll, List.isEmpty_map] at hpos ⊢
    refine List.forall_mem_cons.mpr ⟨?_, ih hms hrest hpos⟩
    -- a field before the last starts no later than the next one, for which the induction speaks
    cases ms with
    | nil => exact startOf_lt_next_of_last hm hpos
    | cons m' ms =>
      obtain ⟨more, hmore, hcons⟩ := slots_of_cons hrest
      have hfirst : ⟨m', (p.next m.footprint false).startOf m'.footprint⟩ ∈ rest := by
        rw [hcons]
        exact List.mem_cons_self
      calc p.startOf m.footprint
          ≤ (p.next m.footprint false).offset := Nat.le_add_right _ _
        _ ≤ (p.next m.footprint false).startOf m'.footprint :=
          (chain_slots hms hrest).le_start _ hfirst
        _ < _ := ih hms hrest hpos _ hfirst

end Positive

end Placement

/-- A struct whose fields stand in the given slots. They follow one another, so no two of them
overlap, and lie inside; the struct is aligned as its most strictly aligned field, and empty only if
all of them are. If it is not, none of them starts at its end, not even one that has no bytes. -/
structure WellPlaced (slots : List Slot) (whole : Footprint) : Prop where
  chain : Slot.Chain 0 slots
  in_order : slots.Pairwise fun a b => a.stop ≤ b.start
  inside : ∀ s ∈ slots, s.stop ≤ whole.size
  align_dvd_size : whole.align ∣ whole.size
  align_of_empty : slots = [] → whole.align = 1
  align_greatest : slots ≠ [] →
    IsGreatest {a | ∃ s ∈ slots, s.footprint.align = a} whole.align
  size_eq_zero_iff : whole.size = 0 ↔ ∀ s ∈ slots, s.footprint.size = 0
  start_lt_size : 0 < whole.size → ∀ s ∈ slots, s.start < whole.size

theorem placed_align_greatest {fs : List Footprint} (hs : ∀ f ∈ fs, 0 < f.align) (hne : fs ≠ []) :
    IsGreatest {a | ∃ f ∈ fs, f.align = a} (placed fs).align := by
  rw [placed_align]
  constructor
  · obtain h | h := foldl_max_mem (fs.map (·.align)) 1
    · obtain ⟨f, hf⟩ := List.exists_mem_of_ne_nil fs hne
      have hle : f.align ≤ 1 := h ▸ mem_le_foldl_max 1 (List.mem_map_of_mem hf)
      have hpos := hs f hf
      exact ⟨f, hf, by omega⟩
    · exact List.mem_map.mp h
  · intro a ha
    obtain ⟨f, hf, rfl⟩ := ha
    exact mem_le_foldl_max 1 (List.mem_map_of_mem hf)

theorem placed_size_eq_zero {fs : List Footprint} (hs : ∀ f ∈ fs, 0 < f.align) :
    (placed fs).size = 0 ↔ ∀ f ∈ fs, f.size = 0 := by
  refine (roundUp_eq_zero (placed_align_pos fs)).trans ⟨fun h => ?_, fun h => ?_⟩
  · have hsum := Placement.empty.offset_add_sum_le_nextAll hs
    have hzero : (fs.map (·.size)).sum = 0 := by omega
    exact List.forall_mem_map.mp (List.sum_eq_zero_iff_forall_eq_nat.mp hzero)
  · exact Placement.nextAll_offset_eq_zero hs h rfl

theorem wellPlaced_of_slots {ms : List MeasuredField} {ss : List Slot}
    (hs : ∀ m ∈ ms, 0 < m.footprint.align) (h : Placement.empty.slots ms = .ok ss) :
    WellPlaced ss (placed (ms.map (·.footprint))) := by
  have hchain := Placement.chain_slots hs h
  have hpos := placed_align_pos (ms.map (·.footprint))
  have hle := le_roundUp (Placement.empty.nextAll (ms.map (·.footprint))).offset hpos
  have haligns : ∀ f ∈ ms.map (·.footprint), 0 < f.align := List.forall_mem_map.mpr hs
  obtain rfl := Placement.map_slots h
  refine ⟨hchain, hchain.pairwise, fun s hmem => ?_, dvd_roundUp _ _, ?_, fun hne => ?_, ?_, ?_⟩
  · exact (Placement.stop_le_nextAll hs h s hmem).trans hle
  · intro hempty
    rw [hempty]
    rfl
  · simpa using placed_align_greatest haligns (by simpa using hne)
  · simpa using placed_size_eq_zero haligns
  · intro hsize s hmem
    refine lt_of_lt_of_le (Placement.start_lt_nextAll hs h ?_ s hmem) hle
    exact Nat.pos_of_ne_zero fun h0 => hsize.ne' ((roundUp_eq_zero hpos).mpr h0)

namespace Calculator

variable {c : Calculator} {fields : List (Field Shape)} {whole : Footprint} {ss : List Slot}

def slots (c : Calculator) (fields : List (Field Shape)) : Except LayoutError (List Slot) := do
  Placement.empty.slots (← fields.mapM c.measured)

theorem slots_eq_ok : c.slots fields = .ok ss ↔ c.Measurable fields ∧
    Placement.empty.slots (fields.map fun f => ⟨f, c.footprintOf f⟩) = .ok ss := by
  simp only [slots, bind_eq_ok, mapM_measured_eq_ok]
  constructor
  · intro h
    obtain ⟨_, ⟨hfields, rfl⟩, h⟩ := h
    exact ⟨hfields, h⟩
  · intro h
    obtain ⟨hfields, h⟩ := h
    exact ⟨_, ⟨hfields, rfl⟩, h⟩

theorem exists_slots_of_measureStruct (h : c.measureStruct fields = .ok whole) :
    ∃ ss, c.slots fields = .ok ss := by
  have hfields := measurable_of_measureStruct h
  simp only [measureStruct, hfields.measureEach, layOut, bind_eq_ok, List.map_map] at h
  obtain ⟨p, hp, -⟩ := h
  have hrun : Placement.empty.addAll ((fields.map fun f => MeasuredField.mk f (c.footprintOf f)).map
      fun m => .ok m.footprint) = .ok p := by
    simpa [Function.comp_def] using hp
  obtain ⟨ss, hss⟩ := Placement.exists_slots hrun
  exact ⟨ss, slots_eq_ok.mpr ⟨hfields, hss⟩⟩

theorem map_field_of_slots (h : c.slots fields = .ok ss) : ss.map (·.field) = fields := by
  have hmap := congrArg (List.map (·.field)) (Placement.map_slots (slots_eq_ok.mp h).2)
  simpa [Function.comp_def] using hmap

theorem measure_of_mem_slots (h : c.slots fields = .ok ss) :
    ∀ s ∈ ss, c.measure s.field.type = .ok s.footprint := by
  intro s hs
  obtain ⟨hfields, hss⟩ := slots_eq_ok.mp h
  have hmem := Placement.map_slots hss ▸ List.mem_map_of_mem (f := Slot.toMeasuredField) hs
  obtain ⟨f, hf, heq⟩ := List.mem_map.mp hmem
  rw [← heq]
  exact hfields f hf

theorem eq_placed_of_slots (hss : c.slots fields = .ok ss)
    (h : c.measureStruct fields = .ok whole) :
    ∃ ms : List MeasuredField, (∀ m ∈ ms, m.footprint.Sound) ∧
      Placement.empty.slots ms = .ok ss ∧ whole = placed (ms.map (·.footprint)) := by
  obtain ⟨hfields, hrun⟩ := slots_eq_ok.mp hss
  refine ⟨_, fun m hm => ?_, hrun, ?_⟩
  · obtain ⟨f, hf, rfl⟩ := List.mem_map.mp hm
    exact measure_sound (hfields f hf)
  · rw [List.map_map]
    exact (hfields.measureStruct_eq_ok.mp h).1

theorem wellPlaced_of_measureStruct (hss : c.slots fields = .ok ss)
    (h : c.measureStruct fields = .ok whole) : WellPlaced ss whole := by
  obtain ⟨ms, hsound, hrun, rfl⟩ := eq_placed_of_slots hss h
  exact wellPlaced_of_slots (fun m hm => (hsound m hm).align_pos) hrun

theorem exists_wellPlaced (c : Calculator) (fields : List (Field Shape)) (whole : Footprint)
    (h : c.measureStruct fields = .ok whole) :
    ∃ slots, c.slots fields = .ok slots ∧ slots.map (·.field) = fields ∧
      (∀ s ∈ slots, c.measure s.field.type = .ok s.footprint) ∧ WellPlaced slots whole := by
  obtain ⟨slots, hslots⟩ := exists_slots_of_measureStruct h
  exact ⟨slots, hslots, map_field_of_slots hslots, measure_of_mem_slots hslots,
    wellPlaced_of_measureStruct hslots h⟩

def sparseFields : List (Field Shape) :=
  [⟨"b", .scalar .bool, 0⟩, ⟨"z", .struct [], 1⟩, ⟨"s", .slice, 2⟩,
    ⟨"a", .array (.scalar (.int .w64)) 0, 3⟩]

theorem exists_wellPlaced_of_sparse :
    (Calculator.mk ⟨0, 3⟩ true).measureStruct sparseFields = .ok ⟨16, 8, 4⟩ ∧
    ∃ slots, (Calculator.mk ⟨0, 3⟩ true).slots sparseFields = .ok slots ∧
      slots.map (·.start) = [0, 1, 3, 8] ∧ slots.map (·.stop) = [1, 1, 6, 8] ∧
      WellPlaced slots ⟨16, 8, 4⟩ := by
  have hwhole : (Calculator.mk ⟨0, 3⟩ true).measureStruct sparseFields = .ok ⟨16, 8, 4⟩ := rfl
  obtain ⟨slots, hslots, -, -, hplaced⟩ := exists_wellPlaced _ _ _ hwhole
  refine ⟨hwhole, slots, hslots, ?_, ?_, hplaced⟩
  · cases hslots
    rfl
  · cases hslots
    rfl

end Calculator

end FieldOrder
