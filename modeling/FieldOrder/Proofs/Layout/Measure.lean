import FieldOrder.Proofs.Layout.Placement
import FieldOrder.Proofs.Shape
import Mathlib.Data.Nat.Prime.Basic

/-!
What every measured type has in common. A measured footprint is a scalar, a few words, a repetition
or a placement of measured footprints, and `Invariant.measure` turns this into one induction for all
invariants of types: soundness on every target, alignments that are powers of two as long as the
largest one is at most two words, and sizes that are multiples of them as long as it is at most one.
-/
namespace FieldOrder

namespace Footprint

def repeated (e : Footprint) : Nat → Footprint
  | 0 => ⟨0, e.align, 0⟩
  | n + 1 =>
    let last := roundUp e.size e.align * n
    ⟨last + e.size, e.align, if e.pointerBytes = 0 then 0 else last + e.pointerBytes⟩

/-- Values in a row are accepted exactly if their stride, the start of the last one, its end and the
end of its references fit. -/
theorem replicate_succ_eq_ok {e f : Footprint} {n : Nat} :
    e.replicate (n + 1) = .ok f ↔ f = e.repeated (n + 1) ∧ roundUp e.size e.align < 2 ^ 64 ∧
      roundUp e.size e.align * n < 2 ^ 64 ∧ roundUp e.size e.align * n + e.size < 2 ^ 64 ∧
      (e.pointerBytes ≠ 0 → roundUp e.size e.align * n + e.pointerBytes < 2 ^ 64) := by
  by_cases hp : e.pointerBytes = 0
  · simp only [replicate, hp, if_true, bind_eq_ok, fit_eq_ok, Except.ok.injEq]
    constructor
    · intro h
      obtain ⟨_, ⟨rfl, hstride⟩, _, ⟨rfl, hlast⟩, _, ⟨rfl, hsize⟩, _, rfl, rfl⟩ := h
      exact ⟨by simp [repeated, hp], hstride, hlast, hsize, by simp⟩
    · intro h
      obtain ⟨rfl, hstride, hlast, hsize, -⟩ := h
      exact ⟨_, ⟨rfl, hstride⟩, _, ⟨rfl, hlast⟩, _, ⟨rfl, hsize⟩, _, rfl, by simp [repeated, hp]⟩
  · simp only [replicate, hp, if_false, bind_eq_ok, fit_eq_ok, Except.ok.injEq]
    constructor
    · intro h
      obtain ⟨_, ⟨rfl, hstride⟩, _, ⟨rfl, hlast⟩, _, ⟨rfl, hsize⟩, _, ⟨rfl, hend⟩, rfl⟩ := h
      exact ⟨by simp [repeated, hp], hstride, hlast, hsize, fun _ => hend⟩
    · intro h
      obtain ⟨rfl, hstride, hlast, hsize, hend⟩ := h
      exact ⟨_, ⟨rfl, hstride⟩, _, ⟨rfl, hlast⟩, _, ⟨rfl, hsize⟩, _, ⟨rfl, hend hp⟩,
        by simp [repeated, hp]⟩

theorem eq_repeated_of_replicate {e f : Footprint} {n : Nat} (h : e.replicate n = .ok f) :
    f = e.repeated n := by
  cases n with
  | zero =>
    cases h
    rfl
  | succ n => exact (replicate_succ_eq_ok.mp h).1

@[simp] theorem repeated_align (e : Footprint) (n : Nat) : (e.repeated n).align = e.align := by
  cases n <;> rfl

theorem repeated_succ_pointerBytes {e : Footprint} {n : Nat} (h : e.pointerBytes ≠ 0) :
    (e.repeated (n + 1)).pointerBytes = roundUp e.size e.align * n + e.pointerBytes :=
  if_neg h

theorem pointerBytes_of_repeated {e : Footprint} {n : Nat}
    (h : (e.repeated n).pointerBytes ≠ 0) : e.pointerBytes ≠ 0 := by
  cases n with
  | zero => simp [repeated] at h
  | succ n =>
    intro he
    simp [repeated, he] at h

end Footprint

theorem Scalar.size_eq_two_pow (k : Scalar) : ∃ j, k.size = 2 ^ j := by
  have hwidth (w : IntWidth) : ∃ j, w.bytes = 2 ^ j := by
    cases w with
    | w8 => exact ⟨0, rfl⟩
    | w16 => exact ⟨1, rfl⟩
    | w32 => exact ⟨2, rfl⟩
    | w64 => exact ⟨3, rfl⟩
  cases k with
  | bool => exact ⟨0, rfl⟩
  | int w => exact hwidth w
  | uint w => exact hwidth w
  | float32 => exact ⟨2, rfl⟩
  | float64 => exact ⟨3, rfl⟩
  | complex64 => exact ⟨3, rfl⟩
  | complex128 => exact ⟨4, rfl⟩

namespace Target

theorem word_eq (t : Target) : t.word = 2 ^ t.wordLog.val := rfl

theorem word_pos (t : Target) : 0 < t.word := Nat.two_pow_pos _

theorem maxAlign_pos (t : Target) : 0 < t.maxAlign := Nat.two_pow_pos _

theorem maxAlign_lt (t : Target) : t.maxAlign < 2 ^ 64 :=
  Nat.pow_lt_pow_right (by decide) t.alignLog.isLt

theorem min_dvd_maxAlign (t : Target) (k : Nat) : min (2 ^ k) t.maxAlign ∣ t.maxAlign := by
  cases le_total (2 ^ k) t.maxAlign with
  | inl h =>
    rw [min_eq_left h]
    exact Nat.pow_dvd_pow 2 ((Nat.pow_le_pow_iff_right (by decide)).mp h)
  | inr h => rw [min_eq_right h]

theorem maxAlign_dvd_word {t : Target} (h : t.maxAlign ≤ t.word) : t.maxAlign ∣ t.word :=
  Nat.pow_dvd_pow 2 ((Nat.pow_le_pow_iff_right (by decide)).mp h)

theorem dvd_of_le_of_dvd_maxAlign (t : Target) {a b : Nat} (ha : a ∣ t.maxAlign)
    (hb : b ∣ t.maxAlign) (h : a ≤ b) : a ∣ b := by
  obtain ⟨i, -, rfl⟩ := (Nat.dvd_prime_pow Nat.prime_two).mp ha
  obtain ⟨j, -, rfl⟩ := (Nat.dvd_prime_pow Nat.prime_two).mp hb
  exact Nat.pow_dvd_pow 2 ((Nat.pow_le_pow_iff_right (by decide)).mp h)

theorem four_words_le_maxAlign {t : Target} (h : 2 * t.word < t.maxAlign) :
    4 * t.word ≤ t.maxAlign := by
  have hlog : t.wordLog.val + 1 < t.alignLog.val := by
    refine (Nat.pow_lt_pow_iff_right (show 1 < 2 by decide)).mp ?_
    rwa [Nat.pow_succ, Nat.mul_comm]
  calc 4 * t.word = 2 ^ (t.wordLog.val + 2) := by rw [word_eq, Nat.pow_add, Nat.mul_comm]
    _ ≤ t.maxAlign := Nat.pow_le_pow_right (by decide) hlog

end Target

theorem Profile.maxAlign_le_two_words (p : Profile) : p.target.maxAlign ≤ 2 * p.target.word := by
  cases p <;> decide

namespace Calculator

variable {c : Calculator} {t : Shape} {f : Footprint}

theorem measureEach_eq_map (c : Calculator) (fields : List (Field Shape)) :
    c.measureEach fields = fields.map fun f => c.measure f.type := by
  induction fields with
  | nil => simp [measureEach]
  | cons f fs ih =>
    obtain ⟨name, type, index⟩ := f
    simp [measureEach, measureField, ih]

theorem measure_array_eq_ok {elem : Shape} {n : Nat} : c.measure (.array elem n) = .ok f ↔
    ∃ e, c.measure elem = .ok e ∧ e.replicate n = .ok f := by
  rw [measure, bind_eq_ok]

def leafFootprint (c : Calculator) (size pointerBytes : Nat) : Footprint :=
  ⟨size, min size c.target.maxAlign, if c.tracking then pointerBytes else 0⟩

theorem leaf_eq_ok {size pointerBytes : Nat} :
    c.leaf size pointerBytes = .ok f ↔ f = c.leafFootprint size pointerBytes ∧ size < 2 ^ 64 := by
  simp only [leaf, bind_eq_ok, fit_eq_ok, Except.ok.injEq]
  constructor
  · intro h
    obtain ⟨_, ⟨rfl, h⟩, rfl⟩ := h
    exact ⟨rfl, h⟩
  · intro h
    obtain ⟨rfl, h⟩ := h
    exact ⟨_, ⟨rfl, h⟩, rfl⟩

theorem align_words (c : Calculator) (hc : c.target.maxAlign ≤ c.target.word) {n m : Nat}
    (hn : 0 < n) : (c.leafFootprint (n * c.target.word) m).align = c.target.maxAlign :=
  min_eq_right (hc.trans (Nat.le_mul_of_pos_left _ hn))

/-- A property that scalars and words have and that repetition and placement keep. -/
structure Invariant (c : Calculator) (P : Footprint → Prop) : Prop where
  scalar : ∀ k : Scalar, P (c.leafFootprint k.size 0)
  words : ∀ n m, 0 < m → m ≤ n → n ≤ 3 →
    P (c.leafFootprint (n * c.target.word) (m * c.target.word))
  repeated : ∀ e n, P e → P (e.repeated n)
  placed : ∀ fs, (∀ f ∈ fs, P f) → P (placed fs)

variable {P : Footprint → Prop}

theorem Invariant.measure (hP : c.Invariant P) (t : Shape) :
    ∀ f, c.measure t = .ok f → P f := by
  induction t with
  | scalar k =>
    intro f h
    rw [Calculator.measure, leaf_eq_ok] at h
    exact h.1 ▸ hP.scalar k
  | string =>
    intro f h
    rw [Calculator.measure, leaf_eq_ok] at h
    simpa [h.1] using hP.words 2 1 (by decide) (by decide) (by decide)
  | slice =>
    intro f h
    rw [Calculator.measure, leaf_eq_ok] at h
    simpa [h.1] using hP.words 3 1 (by decide) (by decide) (by decide)
  | pointer =>
    intro f h
    rw [Calculator.measure, leaf_eq_ok] at h
    simpa [h.1] using hP.words 1 1 (by decide) (by decide) (by decide)
  | interface =>
    intro f h
    rw [Calculator.measure, leaf_eq_ok] at h
    exact h.1 ▸ hP.words 2 2 (by decide) (by decide) (by decide)
  | array elem n ih =>
    intro f h
    obtain ⟨e, he, hf⟩ := measure_array_eq_ok.mp h
    rw [Footprint.eq_repeated_of_replicate hf]
    exact hP.repeated e n (ih e he)
  | struct fields ih =>
    intro f h
    rw [Calculator.measure, measureEach_eq_map] at h
    obtain ⟨fs, hfs, rfl⟩ := eq_placed_of_layOut h
    refine hP.placed fs fun g hg => ?_
    obtain ⟨field, hfield, hg⟩ : ∃ field ∈ fields, c.measure field.type = .ok g :=
      List.mem_map.mp (hfs ▸ List.mem_map_of_mem hg)
    exact ih field hfield g hg
  | unresolved name =>
    intro f h
    rw [Calculator.measure] at h
    cases h

/-! ### Soundness -/

theorem sound_repeated {e : Footprint} (he : e.Sound) (n : Nat) : (e.repeated n).Sound := by
  refine ⟨by simpa using he.align_pos, ?_⟩
  cases n with
  | zero => exact le_refl 0
  | succ n =>
    have hpointers := he.pointers_le
    simp only [Footprint.repeated]
    split <;> omega

theorem sound_placed {fs : List Footprint} (hs : ∀ f ∈ fs, f.Sound) :
    (FieldOrder.placed fs).Sound := by
  have hend : (Placement.empty.nextAll fs).pointerEnd ≤ (Placement.empty.nextAll fs).offset :=
    Placement.pointerEnd_le_nextAll hs (le_refl 0)
  exact ⟨placed_align_pos fs, hend.trans (le_roundUp _ (placed_align_pos fs))⟩

theorem sound_invariant (c : Calculator) : c.Invariant Footprint.Sound where
  scalar k := by
    have hsize : 0 < k.size := by
      obtain ⟨j, hj⟩ := k.size_eq_two_pow
      exact hj ▸ Nat.two_pow_pos j
    exact ⟨lt_min hsize c.target.maxAlign_pos, by simp [leafFootprint]⟩
  words n m hm hmn _ := by
    have hsize : 0 < n * c.target.word := Nat.mul_pos (by omega) c.target.word_pos
    refine ⟨lt_min hsize c.target.maxAlign_pos, ?_⟩
    have hle : m * c.target.word ≤ n * c.target.word := Nat.mul_le_mul_right _ hmn
    simp only [leafFootprint]
    split
    · exact hle
    · exact Nat.zero_le _
  repeated e n he := sound_repeated he n
  placed fs hs := sound_placed hs

theorem measure_sound (h : c.measure t = .ok f) : f.Sound := c.sound_invariant.measure t f h

/-! ### Alignment -/

theorem foldl_max_dvd {xs : List Nat} {a m : Nat} (ha : a ∣ m) (hs : ∀ x ∈ xs, x ∣ m) :
    xs.foldl max a ∣ m := by
  obtain h | h := foldl_max_mem xs a
  · rwa [h]
  · exact hs _ h

theorem align_le_invariant (c : Calculator) : c.Invariant fun f => f.align ≤ c.target.maxAlign where
  scalar _ := min_le_right _ _
  words _ _ _ _ _ := min_le_right _ _
  repeated e n he := by simpa using he
  placed fs hs := by
    rw [placed_align]
    obtain h | h := foldl_max_mem (fs.map (·.align)) 1
    · rw [h]
      exact c.target.maxAlign_pos
    · obtain ⟨f, hf, halign⟩ := List.mem_map.mp h
      exact halign ▸ hs f hf

/-- With a largest alignment of at most two words, all alignments are powers of two. A slice has
three words, and a larger limit would leave it aligned to them. -/
theorem align_dvd_invariant (c : Calculator) (hc : c.target.maxAlign ≤ 2 * c.target.word) :
    c.Invariant fun f => f.align ∣ c.target.maxAlign where
  scalar k := by
    obtain ⟨j, hj⟩ := k.size_eq_two_pow
    simpa [leafFootprint, hj] using c.target.min_dvd_maxAlign j
  words n m hm hmn hn := by
    obtain rfl | rfl | rfl := (by omega : n = 1 ∨ n = 2 ∨ n = 3)
    · simpa [leafFootprint, Target.word_eq] using c.target.min_dvd_maxAlign c.target.wordLog.val
    · have h := c.target.min_dvd_maxAlign (c.target.wordLog.val + 1)
      rwa [Nat.pow_succ, Nat.mul_comm] at h
    · have h : c.target.maxAlign ≤ 3 * c.target.word := by omega
      simp [leafFootprint, min_eq_right h]
  repeated e n he := by simpa using he
  placed fs hs := by
    rw [placed_align]
    refine foldl_max_dvd (Nat.one_dvd _) fun a ha => ?_
    obtain ⟨f, hf, rfl⟩ := List.mem_map.mp ha
    exact hs f hf

theorem measure_align_dvd (hc : c.target.maxAlign ≤ 2 * c.target.word)
    (h : c.measure t = .ok f) : f.align ∣ c.target.maxAlign :=
  (c.align_dvd_invariant hc).measure t f h

theorem align_dvd_size_invariant (c : Calculator) (hc : c.target.maxAlign ≤ c.target.word) :
    c.Invariant fun f => f.align ∣ f.size where
  scalar k := by
    obtain ⟨j, hj⟩ := k.size_eq_two_pow
    cases le_total k.size c.target.maxAlign with
    | inl h => simp [leafFootprint, min_eq_left h]
    | inr h =>
      simp only [leafFootprint, min_eq_right h]
      rw [hj] at h ⊢
      exact Nat.pow_dvd_pow 2 ((Nat.pow_le_pow_iff_right (by decide)).mp h)
  words n m hm hmn _ := by
    rw [c.align_words hc (by omega)]
    exact (Target.maxAlign_dvd_word hc).mul_left n
  repeated e n he := by
    cases n with
    | zero => exact Nat.dvd_zero _
    | succ n => exact Nat.dvd_add ((dvd_roundUp e.size e.align).mul_right n) he
  placed fs _ := dvd_roundUp _ _

/-- With a largest alignment of at most one word, whatever holds references has the largest
alignment, however deep they are. -/
theorem pointers_align_invariant (c : Calculator) (hc : c.target.maxAlign ≤ c.target.word) :
    c.Invariant fun f => f.align ∣ c.target.maxAlign ∧
      (f.pointerBytes ≠ 0 → f.align = c.target.maxAlign) where
  scalar k := ⟨(c.align_dvd_invariant (by omega)).scalar k, by simp [leafFootprint]⟩
  words n m hm hmn hn :=
    ⟨(c.align_dvd_invariant (by omega)).words n m hm hmn hn, fun _ => c.align_words hc (by omega)⟩
  repeated e n he := by
    rw [Footprint.repeated_align]
    exact ⟨he.1, fun hp => he.2 (Footprint.pointerBytes_of_repeated hp)⟩
  placed fs hs := by
    have hdvd := (c.align_dvd_invariant (by omega)).placed fs fun f hf => (hs f hf).1
    refine ⟨hdvd, fun hp => ?_⟩
    obtain ⟨f, hf, hfp⟩ : ∃ f ∈ fs, f.pointerBytes ≠ 0 := by
      by_contra hnone
      push Not at hnone
      exact hp (Placement.empty.pointerEnd_nextAll_of_pointerFree hnone)
    refine le_antisymm (Nat.le_of_dvd c.target.maxAlign_pos hdvd) ?_
    rw [← (hs f hf).2 hfp, placed_align]
    exact mem_le_foldl_max 1 (List.mem_map_of_mem hf)

/-! ### Fields that can be measured -/

variable {fields q : List (Field Shape)} {m : Footprint}

def footprintOf (c : Calculator) (f : Field Shape) : Footprint :=
  match c.measure f.type with
  | .ok m => m
  | .error _ => ⟨0, 1, 0⟩

def Measurable (c : Calculator) (fields : List (Field Shape)) : Prop :=
  ∀ f ∈ fields, c.measure f.type = .ok (c.footprintOf f)

theorem Measurable.perm (h : c.Measurable fields) (hq : q.Perm fields) : c.Measurable q :=
  fun f hf => h f (hq.subset hf)

theorem Measurable.measureEach (h : c.Measurable fields) :
    c.measureEach fields = (fields.map c.footprintOf).map .ok := by
  rw [measureEach_eq_map, List.map_map]
  exact List.map_congr_left h

theorem measurable_of_measureEach {gs : List Footprint}
    (h : c.measureEach fields = gs.map .ok) : c.Measurable fields := by
  intro f hf
  have hmem : c.measure f.type ∈ gs.map .ok := by
    rw [← h, measureEach_eq_map]
    exact List.mem_map_of_mem hf
  obtain ⟨g, -, hg⟩ := List.mem_map.mp hmem
  simp [footprintOf, ← hg]

theorem Measurable.sound (h : c.Measurable fields) :
    ∀ g ∈ fields.map c.footprintOf, g.Sound := by
  intro g hg
  obtain ⟨f, hf, rfl⟩ := List.mem_map.mp hg
  exact measure_sound (h f hf)

/-- Laying out measurable fields is placing their footprints, as long as the result fits. -/
theorem Measurable.measureStruct_eq_ok (h : c.Measurable fields) :
    c.measureStruct fields = .ok m ↔ m = placed (fields.map c.footprintOf) ∧ m.size < 2 ^ 64 := by
  rw [measureStruct, h.measureEach]
  exact layOut_eq_ok h.sound

theorem measurable_of_measureStruct (h : c.measureStruct fields = .ok m) : c.Measurable fields := by
  obtain ⟨gs, hgs, -⟩ := eq_placed_of_layOut h
  exact measurable_of_measureEach hgs

end Calculator

end FieldOrder
