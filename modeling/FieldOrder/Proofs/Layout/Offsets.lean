import FieldOrder.Proofs.Layout.Exactness
import FieldOrder.Proofs.Layout.Slots
import Mathlib.Data.Set.Basic

/-!
Where the parts of a value stand, through any nesting of structs and arrays. From the offsets of its
parts a value has a map of the bytes that may hold references, and its pointer bytes are the end of
this map. As long as the largest alignment is at most two words, the offset of each part is a
multiple of the alignment of that part.
-/
namespace FieldOrder

namespace Calculator

/-- A value of the second type has one of the first type as a part at the given offset: as a whole,
inside an element, or inside a field. Elements stand at multiples of the stride, fields in their
slots. -/
inductive PartAt (c : Calculator) (s : Shape) : Shape → Nat → Prop
  | whole : PartAt c s s 0
  | elem {elem : Shape} {e : Footprint} {n i offset : Nat} : c.measure elem = .ok e → i < n →
      PartAt c s elem offset → PartAt c s (.array elem n) (roundUp e.size e.align * i + offset)
  | field {fields : List (Field Shape)} {slots : List Slot} {slot : Slot} {offset : Nat} :
      c.slots fields = .ok slots → slot ∈ slots →
      PartAt c s slot.field.type offset → PartAt c s (.struct fields) (slot.start + offset)

end Calculator

/-! ### References -/

def Shape.isLeaf : Shape → Bool
  | .array .. | .struct _ => false
  | .scalar _ | .string | .slice | .pointer | .interface | .unresolved _ => true

/-- The words at the start of a value that hold references. A value made of others has none but
theirs. -/
def Shape.referenceWords : Shape → Nat
  | .string | .slice | .pointer => 1
  | .interface => 2
  | .scalar _ | .array .. | .struct _ | .unresolved _ => 0

structure EndsAt (bytes : Set Nat) (n : Nat) : Prop where
  lt : ∀ b ∈ bytes, b < n
  last : 0 < n → n - 1 ∈ bytes

theorem EndsAt.eq_empty_or_isGreatest {bytes : Set Nat} {n : Nat} (h : EndsAt bytes n) :
    bytes = ∅ ∧ n = 0 ∨ ∃ last, IsGreatest bytes last ∧ n = last + 1 := by
  cases n with
  | zero =>
    have hnone : ∀ b, b ∉ bytes := fun b hb => Nat.not_lt_zero b (h.lt b hb)
    exact .inl ⟨Set.eq_empty_of_forall_notMem hnone, rfl⟩
  | succ n =>
    have hlast : n ∈ bytes := h.last n.succ_pos
    exact .inr ⟨n, ⟨hlast, fun b hb => Nat.lt_succ_iff.mp (h.lt b hb)⟩, rfl⟩

namespace Placement

variable {p : Placement} {ms : List MeasuredField} {ss : List Slot}

theorem pointerEnd_le_pointerEnd_nextAll {fs : List Footprint} (hs : ∀ f ∈ fs, f.Sound)
    (hp : p.pointerEnd ≤ p.offset) : p.pointerEnd ≤ (p.nextAll fs).pointerEnd := by
  induction fs generalizing p with
  | nil => exact le_refl _
  | cons f fs ih =>
    obtain ⟨hf, hfs⟩ := List.forall_mem_cons.mp hs
    refine le_trans ?_ (ih hfs (pointerEnd_le_next hf hp fs.isEmpty))
    have hstart := p.offset_le_startOf hf.align_pos
    simp only [next]
    split <;> omega

theorem references_le_pointerEnd (hs : ∀ m ∈ ms, m.footprint.Sound) (hp : p.pointerEnd ≤ p.offset)
    (h : p.slots ms = .ok ss) : ∀ s ∈ ss, s.footprint.pointerBytes ≠ 0 →
      s.start + s.footprint.pointerBytes ≤ (p.nextAll (ms.map (·.footprint))).pointerEnd := by
  induction ms generalizing p ss with
  | nil =>
    cases h
    simp
  | cons m ms ih =>
    obtain ⟨hm, hms⟩ := List.forall_mem_cons.mp hs
    obtain ⟨rest, hrest, rfl⟩ := slots_of_cons h
    have hnext := pointerEnd_le_next hm hp ms.isEmpty
    rw [List.map_cons, nextAll, List.isEmpty_map]
    refine List.forall_mem_cons.mpr ⟨fun hpointers => ?_, ih hms hnext hrest⟩
    have hkeep := pointerEnd_le_pointerEnd_nextAll (List.forall_mem_map.mpr hms) hnext
    simpa [next, hpointers] using hkeep

theorem exists_references_end (h : p.slots ms = .ok ss) :
    (p.nextAll (ms.map (·.footprint))).pointerEnd = p.pointerEnd ∨
      ∃ s ∈ ss, s.footprint.pointerBytes ≠ 0 ∧
        (p.nextAll (ms.map (·.footprint))).pointerEnd = s.start + s.footprint.pointerBytes := by
  induction ms generalizing p ss with
  | nil => exact .inl rfl
  | cons m ms ih =>
    obtain ⟨rest, hrest, rfl⟩ := slots_of_cons h
    rw [List.map_cons, nextAll, List.isEmpty_map]
    obtain hkeep | ⟨s, hs, hpointers, hend⟩ := ih hrest
    · rw [hkeep]
      by_cases hm : m.footprint.pointerBytes = 0
      · exact .inl (by simp [next, hm])
      · exact .inr ⟨_, List.mem_cons_self, hm, by simp [next, hm]⟩
    · exact .inr ⟨s, List.mem_cons_of_mem _ hs, hpointers, hend⟩

end Placement

namespace Calculator

variable {c : Calculator} {s t elem : Shape} {f e : Footprint} {n b offset : Nat}
  {fields : List (Field Shape)} {slots : List Slot}

def referenceBytes (c : Calculator) (t : Shape) : Set Nat :=
  {b | ∃ s offset, c.PartAt s t offset ∧ offset ≤ b ∧
    b < offset + s.referenceWords * c.target.word}

theorem mem_referenceBytes_array (he : c.measure elem = .ok e) :
    b ∈ c.referenceBytes (.array elem n) ↔
      ∃ i < n, ∃ r ∈ c.referenceBytes elem, b = roundUp e.size e.align * i + r := by
  constructor
  · intro hb
    obtain ⟨s, _, hpart, hle, hlt⟩ := hb
    cases hpart with
    | whole => simp [Shape.referenceWords] at hlt
    | @elem _ e' _ i offset he' hi hpart =>
      obtain rfl : e' = e := by simpa [he'] using he
      refine ⟨i, hi, b - roundUp e'.size e'.align * i, ⟨s, offset, hpart, ?_, ?_⟩, ?_⟩ <;> omega
  · intro h
    obtain ⟨i, hi, r, ⟨s, offset, hpart, hle, hlt⟩, rfl⟩ := h
    exact ⟨s, _, .elem he hi hpart, by omega, by omega⟩

theorem mem_referenceBytes_struct (hslots : c.slots fields = .ok slots) :
    b ∈ c.referenceBytes (.struct fields) ↔
      ∃ s ∈ slots, ∃ r ∈ c.referenceBytes s.field.type, b = s.start + r := by
  constructor
  · intro hb
    obtain ⟨s, _, hpart, hle, hlt⟩ := hb
    cases hpart with
    | whole => simp [Shape.referenceWords] at hlt
    | @field _ slots' slot offset hslots' hslot hpart =>
      obtain rfl : slots' = slots := by simpa [hslots'] using hslots
      refine ⟨slot, hslot, b - slot.start, ⟨s, offset, hpart, ?_, ?_⟩, ?_⟩ <;> omega
  · intro h
    obtain ⟨slot, hslot, r, ⟨s, offset, hpart, hle, hlt⟩, rfl⟩ := h
    exact ⟨s, _, .field hslots hslot hpart, by omega, by omega⟩

theorem eq_of_partAt_leaf (ht : t.isLeaf) (h : c.PartAt s t offset) : s = t ∧ offset = 0 := by
  cases h with
  | whole => exact ⟨rfl, rfl⟩
  | elem | field => cases ht

theorem endsAt_leaf (ht : t.isLeaf) (hn : n = t.referenceWords * c.target.word) :
    EndsAt (c.referenceBytes t) n where
  lt := by
    intro b hb
    obtain ⟨s, offset, hpart, -, hlt⟩ := hb
    obtain ⟨rfl, rfl⟩ := eq_of_partAt_leaf ht hpart
    omega
  last hpos := ⟨t, 0, .whole, Nat.zero_le _, by omega⟩

theorem endsAt_array (he : c.measure elem = .ok e)
    (h : EndsAt (c.referenceBytes elem) e.pointerBytes) (n : Nat) :
    EndsAt (c.referenceBytes (.array elem n)) (e.repeated n).pointerBytes := by
  cases n with
  | zero =>
    refine ⟨fun b hb => ?_, fun hpos => absurd hpos (Nat.lt_irrefl 0)⟩
    obtain ⟨i, hi, -⟩ := (mem_referenceBytes_array he).mp hb
    exact absurd hi (Nat.not_lt_zero i)
  | succ n =>
    refine ⟨fun b hb => ?_, fun hpos => (mem_referenceBytes_array he).mpr ?_⟩
    · obtain ⟨i, hi, r, hr, rfl⟩ := (mem_referenceBytes_array he).mp hb
      have hlt := h.lt r hr
      have hstride : roundUp e.size e.align * i ≤ roundUp e.size e.align * n :=
        Nat.mul_le_mul_left _ (by omega)
      rw [Footprint.repeated_succ_pointerBytes (by omega)]
      omega
    · have hpointers := Footprint.pointerBytes_of_repeated hpos.ne'
      refine ⟨n, n.lt_succ_self, e.pointerBytes - 1, h.last (by omega), ?_⟩
      rw [Footprint.repeated_succ_pointerBytes hpointers]
      omega

theorem endsAt_struct (hslots : c.slots fields = .ok slots) (h : c.measureStruct fields = .ok f)
    (hends : ∀ s ∈ slots, EndsAt (c.referenceBytes s.field.type) s.footprint.pointerBytes) :
    EndsAt (c.referenceBytes (.struct fields)) f.pointerBytes := by
  obtain ⟨ms, hsound, hrun, rfl⟩ := eq_placed_of_slots hslots h
  refine ⟨fun b hb => ?_, fun hpos => (mem_referenceBytes_struct hslots).mpr ?_⟩
  · obtain ⟨s, hs, r, hr, rfl⟩ := (mem_referenceBytes_struct hslots).mp hb
    have hlt := (hends s hs).lt r hr
    have hle := Placement.references_le_pointerEnd hsound (le_refl 0) hrun s hs (by omega)
    exact lt_of_lt_of_le (Nat.add_lt_add_left hlt s.start) hle
  · obtain hnone | ⟨s, hs, hpointers, hend⟩ := Placement.exists_references_end hrun
    · exact absurd hnone hpos.ne'
    · have hwhole : (placed (ms.map (·.footprint))).pointerBytes =
          s.start + s.footprint.pointerBytes := hend
      exact ⟨s, hs, s.footprint.pointerBytes - 1, (hends s hs).last (by omega), by omega⟩

theorem referenceBytes_endsAt (hc : c.tracking = true) (h : c.measure t = .ok f) :
    EndsAt (c.referenceBytes t) f.pointerBytes := by
  induction t generalizing f with
  | scalar _ | string | slice | pointer | interface =>
    rw [measure, leaf_eq_ok] at h
    obtain ⟨rfl, -⟩ := h
    exact endsAt_leaf rfl (by simp [leafFootprint, hc, Shape.referenceWords])
  | array elem n ih =>
    obtain ⟨e, he, h⟩ := measure_array_eq_ok.mp h
    rw [Footprint.eq_repeated_of_replicate h]
    exact endsAt_array he (ih he) n
  | struct fields ih =>
    rw [measure] at h
    obtain ⟨slots, hslots⟩ := exists_slots_of_measureStruct h
    refine endsAt_struct hslots h fun s hs => ?_
    have hfield : s.field ∈ fields := map_field_of_slots hslots ▸ List.mem_map_of_mem hs
    exact ih s.field hfield (measure_of_mem_slots hslots s hs)
  | unresolved name =>
    rw [measure] at h
    cases h

/-- With references tracked, the pointer bytes of a type that can be measured are none if no byte
may hold references, and otherwise they end with the last byte that may. They never exceed the size,
so that nothing is cut off where the tails of measured fields are compared. -/
theorem pointerBytes_isLast (c : Calculator) (hc : c.tracking = true) :
    (∀ t f, c.measure t = .ok f →
      (c.referenceBytes t = ∅ ∧ f.pointerBytes = 0 ∨
        ∃ last, IsGreatest (c.referenceBytes t) last ∧ f.pointerBytes = last + 1) ∧
      f.pointerBytes ≤ f.size) ∧
    ∀ (fields : List (Field Shape)) (measured : List MeasuredField),
      fields.mapM c.measured = .ok measured → ∀ m ∈ measured,
      m.footprint.pointerBytes ≤ m.footprint.size ∧
      (m.hasNoPointers = false → m.footprint.pointerBytes + m.tail = m.footprint.size) := by
  constructor
  · intro t f h
    exact ⟨(referenceBytes_endsAt hc h).eq_empty_or_isGreatest, (measure_sound h).pointers_le⟩
  · intro fields measured h m hm
    obtain ⟨hfields, rfl⟩ := mapM_measured_eq_ok.mp h
    obtain ⟨f, hf, rfl⟩ := List.mem_map.mp hm
    have hle := (measure_sound (hfields f hf)).pointers_le
    refine ⟨hle, fun hpointers => ?_⟩
    simp only [MeasuredField.tail, hpointers, Bool.false_eq_true, if_false]
    omega

def stringsShape : Shape :=
  .struct [⟨"n", .scalar (.int .w64), 0⟩, ⟨"a", .array (.struct [⟨"s", .string, 0⟩,
    ⟨"z", .struct [], 1⟩]) 2, 1⟩, ⟨"b", .scalar .bool, 2⟩]

theorem pointerBytes_isLast_of_strings :
    (Calculator.mk Profile.amd64.target true).measure stringsShape = .ok ⟨64, 8, 40⟩ ∧
    IsGreatest ((Calculator.mk Profile.amd64.target true).referenceBytes stringsShape) 39 ∧
    (Calculator.mk Profile.amd64.target true).referenceBytes (.array stringsShape 0) = ∅ ∧
    ∃ m, [Field.mk "s" Shape.string 0].mapM (Calculator.mk Profile.amd64.target true).measured =
      .ok [m] ∧ m.footprint.pointerBytes = 8 ∧ 8 + m.tail = m.footprint.size := by
  have hstrings : (Calculator.mk Profile.amd64.target true).measure stringsShape =
      .ok ⟨64, 8, 40⟩ := rfl
  have hnone : (Calculator.mk Profile.amd64.target true).measure (.array stringsShape 0) =
      .ok ⟨0, 8, 0⟩ := rfl
  have hmeasured : [Field.mk "s" Shape.string 0].mapM
      (Calculator.mk Profile.amd64.target true).measured =
      .ok [⟨⟨"s", .string, 0⟩, ⟨16, 8, 8⟩⟩] := rfl
  obtain ⟨h, htail⟩ := pointerBytes_isLast ⟨Profile.amd64.target, true⟩ rfl
  refine ⟨hstrings, ?_, ?_, _, hmeasured, rfl, (htail _ _ hmeasured _ (.head _)).2 rfl⟩
  · obtain ⟨-, h0⟩ | ⟨last, hlast, heq⟩ := (h _ _ hstrings).1
    · cases h0
    · cases heq
      exact hlast
  · obtain ⟨hempty, -⟩ | ⟨last, -, heq⟩ := (h _ _ hnone).1
    · exact hempty
    · cases heq

/-! ### Alignment of the parts -/

theorem align_dvd_of_partAt (hc : c.target.maxAlign ≤ 2 * c.target.word)
    (hpart : c.PartAt s t offset) (h : c.measure t = .ok f) :
    ∃ g, c.measure s = .ok g ∧ g.align ∣ f.align ∧ g.align ∣ offset := by
  induction hpart generalizing f with
  | whole => exact ⟨f, h, dvd_refl _, Nat.dvd_zero _⟩
  | @elem elem e n i offset he hi hpart ih =>
    obtain ⟨g, hg, halign, hoffset⟩ := ih he
    have hf : f.align = e.align := by
      rw [measure, he] at h
      rw [Footprint.eq_repeated_of_replicate h, Footprint.repeated_align]
    have hstride : g.align ∣ roundUp e.size e.align := halign.trans (dvd_roundUp _ _)
    exact ⟨g, hg, hf ▸ halign, Nat.dvd_add (hstride.mul_right i) hoffset⟩
  | @field fields slots slot offset hslots hslot hpart ih =>
    have hmeasure := measure_of_mem_slots hslots slot hslot
    obtain ⟨g, hg, halign, hoffset⟩ := ih hmeasure
    have hf := measure_align_dvd hc h
    rw [measure] at h
    have hplaced := wellPlaced_of_measureStruct hslots h
    -- the largest alignment among the fields is a multiple of each only because all are powers of
    -- two
    have hle : slot.footprint.align ≤ f.align :=
      (hplaced.align_greatest (List.ne_nil_of_mem hslot)).2 ⟨slot, hslot, rfl⟩
    have hdvd : slot.footprint.align ∣ f.align :=
      c.target.dvd_of_le_of_dvd_maxAlign (measure_align_dvd hc hmeasure) hf hle
    have hstart := hplaced.chain.align_dvd_start slot hslot
    exact ⟨g, hg, halign.trans hdvd, Nat.dvd_add (halign.trans hstart) hoffset⟩

theorem measure_slice_of_short_word (hc : 2 * c.target.word < c.target.maxAlign) :
    ∃ f, c.measure .slice = .ok f ∧ f.align = 3 * c.target.word := by
  have hfour := Target.four_words_le_maxAlign hc
  have hlimit := c.target.maxAlign_lt
  exact ⟨_, leaf_eq_ok.mpr ⟨rfl, by omega⟩, min_eq_left (by omega)⟩

theorem three_mul_ne_two_pow (n k : Nat) : 3 * n ≠ 2 ^ k := by
  intro h
  have hdvd : 3 ∣ 2 := Nat.prime_three.dvd_of_dvd_pow (Dvd.intro n h)
  omega

/-- Where the largest alignment is at most two words, which it is on all profiles, every alignment
that goes into a measured type is a power of two up to the largest, and each part of it, however
deep, stands at a multiple of its own alignment. Where it is larger, not all alignments are powers
of two. -/
theorem parts_aligned (c : Calculator) :
    (∀ p : Profile, p.target.maxAlign ≤ 2 * p.target.word) ∧
    (c.target.maxAlign ≤ 2 * c.target.word → ∀ t f, c.measure t = .ok f →
      (∀ s ∈ t.parts, ∃ g, c.measure s = .ok g ∧ g.align ≤ c.target.maxAlign ∧
        ∃ k, g.align = 2 ^ k) ∧
      ∀ s offset, c.PartAt s t offset → ∃ g, c.measure s = .ok g ∧ g.align ∣ offset) ∧
    (2 * c.target.word < c.target.maxAlign →
      ∃ t f, c.measure t = .ok f ∧ ∀ k, f.align ≠ 2 ^ k) := by
  refine ⟨Profile.maxAlign_le_two_words, fun hc t f h => ⟨fun s hs => ?_, fun s offset hpart => ?_⟩,
    fun hc => ?_⟩
  · obtain ⟨g, hg⟩ := exists_measure_of_mem_parts h hs
    obtain ⟨k, -, hk⟩ := (Nat.dvd_prime_pow Nat.prime_two).mp (measure_align_dvd hc hg)
    exact ⟨g, hg, c.align_le_invariant.measure s g hg, k, hk⟩
  · obtain ⟨g, hg, -, hoffset⟩ := align_dvd_of_partAt hc hpart h
    exact ⟨g, hg, hoffset⟩
  · obtain ⟨f, hf, halign⟩ := measure_slice_of_short_word hc
    exact ⟨.slice, f, hf, fun k => halign ▸ three_mul_ne_two_pow _ k⟩

def recordFields : List (Field Shape) :=
  [⟨"c", .scalar .bool, 0⟩, ⟨"s", .slice, 1⟩, ⟨"n", .scalar (.int .w64), 2⟩]

def deepFields : List (Field Shape) :=
  [⟨"b", .scalar .bool, 0⟩, ⟨"a", .array (.struct recordFields) 3, 1⟩]

theorem parts_aligned_of_deep :
    (Calculator.mk Profile.amd64p32.target true).measure (.struct deepFields) = .ok ⟨104, 8, 84⟩ ∧
    (Calculator.mk Profile.amd64p32.target true).PartAt (.scalar (.int .w64))
    (.struct deepFields) 96 ∧ 8 ∣ 96 ∧
    .slice ∈ (Shape.struct deepFields).parts ∧
    (∃ g, (Calculator.mk Profile.amd64p32.target true).measure .slice = .ok g ∧
      g.align ≤ 8 ∧ ∃ k, g.align = 2 ^ k) ∧
    ∃ t f, (Calculator.mk ⟨0, 3⟩ true).measure t = .ok f ∧ ∀ k, f.align ≠ 2 ^ k := by
  have hwhole : (Calculator.mk Profile.amd64p32.target true).measure (.struct deepFields) =
      .ok ⟨104, 8, 84⟩ := rfl
  have hrecord : (Calculator.mk Profile.amd64p32.target true).slots recordFields = .ok
      [⟨⟨⟨"c", .scalar .bool, 0⟩, ⟨1, 1, 0⟩⟩, 0⟩, ⟨⟨⟨"s", .slice, 1⟩, ⟨12, 8, 4⟩⟩, 8⟩,
        ⟨⟨⟨"n", .scalar (.int .w64), 2⟩, ⟨8, 8, 0⟩⟩, 24⟩] := rfl
  have helem : (Calculator.mk Profile.amd64p32.target true).measure (.struct recordFields) =
      .ok ⟨32, 8, 12⟩ := rfl
  have hdeep : (Calculator.mk Profile.amd64p32.target true).slots deepFields = .ok
      [⟨⟨⟨"b", .scalar .bool, 0⟩, ⟨1, 1, 0⟩⟩, 0⟩,
        ⟨⟨⟨"a", .array (.struct recordFields) 3, 1⟩, ⟨96, 8, 76⟩⟩, 8⟩] := rfl
  have hpart : (Calculator.mk Profile.amd64p32.target true).PartAt (.scalar (.int .w64))
      (.struct deepFields) 96 := by
    have hn := PartAt.field hrecord (.tail _ (.tail _ (.head _))) .whole
    exact .field hdeep (.tail _ (.head _)) (.elem helem (show 2 < 3 by decide) hn)
  have hslice : .slice ∈ (Shape.struct deepFields).parts := by
    simp [deepFields, recordFields, Shape.parts, Shape.partsOfEach, Shape.partsOfField]
  obtain ⟨haligns, hoffsets⟩ := (parts_aligned ⟨Profile.amd64p32.target, true⟩).2.1 (by decide)
    _ _ hwhole
  refine ⟨hwhole, hpart, ?_, hslice, haligns _ hslice,
    (parts_aligned ⟨⟨0, 3⟩, true⟩).2.2 (by decide)⟩
  obtain ⟨g, hg, hdvd⟩ := hoffsets _ _ hpart
  cases hg
  exact hdvd

end Calculator

end FieldOrder
