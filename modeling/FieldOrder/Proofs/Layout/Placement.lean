import FieldOrder.Layout.Footprint
import Mathlib.Algebra.BigOperators.Group.List.Basic
import Mathlib.Algebra.GroupWithZero.Nat
import Mathlib.Algebra.Order.Group.Nat
import Mathlib.Order.MinMax

/-!
Placement without the 64-bit limit. The checked placement succeeds exactly if the last offset of the
unchecked one fits, and then the two agree, so that questions about orders of fields are questions
about natural numbers. A field never starts before the end of the one before it, whatever the order.
-/
namespace FieldOrder

theorem bind_eq_ok {ε α β : Type} {x : Except ε α} {f : α → Except ε β} {b : β} :
    (x >>= f) = .ok b ↔ ∃ a, x = .ok a ∧ f a = .ok b := by
  cases x with
  | error e => simp [bind, Except.bind]
  | ok a => simp [bind, Except.bind]

theorem bind_eq_error {ε α β : Type} {x : Except ε α} {f : α → Except ε β} {e : ε} :
    (x >>= f) = .error e ↔ x = .error e ∨ ∃ a, x = .ok a ∧ f a = .error e := by
  cases x with
  | error e' => simp [bind, Except.bind]
  | ok a => simp [bind, Except.bind]

theorem fit_eq_ok {n m : Nat} : fit n = .ok m ↔ m = n ∧ n < 2 ^ 64 := by
  rw [fit, show UInt64.size = 2 ^ 64 from rfl]
  by_cases h : n < 2 ^ 64
  · rw [if_pos h, Except.ok.injEq]
    exact ⟨fun hn => ⟨hn.symm, h⟩, fun hn => hn.1.symm⟩
  · rw [if_neg h]
    constructor
    · intro hn
      cases hn
    · intro hn
      exact absurd hn.2 h

/-! ### Rounding -/

theorem dvd_roundUp (x a : Nat) : a ∣ roundUp x a := Dvd.intro_left _ rfl

theorem le_roundUp (x : Nat) {a : Nat} (ha : 0 < a) : x ≤ roundUp x a := by
  have hd := Nat.div_add_mod (x + a - 1) a
  have hm := Nat.mod_lt (x + a - 1) ha
  rw [Nat.mul_comm] at hd
  unfold roundUp
  omega

theorem roundUp_mono {x y : Nat} (a : Nat) (h : x ≤ y) : roundUp x a ≤ roundUp y a :=
  Nat.mul_le_mul_right a (Nat.div_le_div_right (by omega))

theorem roundUp_of_dvd {x a : Nat} (ha : 0 < a) (h : a ∣ x) : roundUp x a = x := by
  obtain ⟨k, rfl⟩ := h
  have hk : (a * k + a - 1) / a = k := by
    rw [Nat.add_sub_assoc ha, Nat.mul_add_div ha, Nat.div_eq_of_lt (by omega), Nat.add_zero]
  rw [roundUp, hk, Nat.mul_comm]

theorem roundUp_add_of_dvd {x y a : Nat} (ha : 0 < a) (h : a ∣ y) :
    roundUp (y + x) a = y + roundUp x a := by
  obtain ⟨k, rfl⟩ := h
  have hsum : a * k + x + a - 1 = a * k + (x + a - 1) := by omega
  rw [roundUp, hsum, Nat.mul_add_div ha, Nat.add_mul, Nat.mul_comm k a, roundUp]

theorem roundUp_zero {a : Nat} (ha : 0 < a) : roundUp 0 a = 0 :=
  roundUp_of_dvd ha (Nat.dvd_zero a)

namespace Footprint

/-- A footprint that a value can have: it is aligned to something, and its references end inside. -/
structure Sound (f : Footprint) : Prop where
  align_pos : 0 < f.align
  pointers_le : f.pointerBytes ≤ f.size

end Footprint

namespace Placement

def startOf (p : Placement) (f : Footprint) : Nat := roundUp p.offset f.align

def sizeOf (p : Placement) (f : Footprint) (last : Bool) : Nat :=
  if last ∧ f.size = 0 ∧ p.offset ≠ 0 then 1 else f.size

def next (p : Placement) (f : Footprint) (last : Bool) : Placement where
  offset := p.startOf f + p.sizeOf f last
  align := max p.align f.align
  pointerEnd := if f.pointerBytes = 0 then p.pointerEnd else p.startOf f + f.pointerBytes

def nextAll (p : Placement) : List Footprint → Placement
  | [] => p
  | f :: fs => (p.next f fs.isEmpty).nextAll fs

def close (p : Placement) : Footprint := ⟨roundUp p.offset p.align, p.align, p.pointerEnd⟩

variable {p q : Placement} {f : Footprint} {fs : List Footprint}

theorem size_le_sizeOf (p : Placement) (f : Footprint) (last : Bool) :
    f.size ≤ p.sizeOf f last := by
  unfold sizeOf
  split
  · rename_i h
    omega
  · exact le_refl _

theorem offset_le_startOf (p : Placement) (hf : 0 < f.align) : p.offset ≤ p.startOf f :=
  le_roundUp p.offset hf

theorem offset_add_size_le_next (p : Placement) (hf : 0 < f.align) (last : Bool) :
    p.offset + f.size ≤ (p.next f last).offset :=
  Nat.add_le_add (p.offset_le_startOf hf) (p.size_le_sizeOf f last)

/-- A field is placed exactly if its start, the end of its references and its own end fit. -/
theorem add_eq_ok_iff (p q : Placement) (f : Footprint) (last : Bool) :
    p.add f last = .ok q ↔ q = p.next f last ∧ p.startOf f < 2 ^ 64 ∧
      (f.pointerBytes ≠ 0 → p.startOf f + f.pointerBytes < 2 ^ 64) ∧
      p.startOf f + p.sizeOf f last < 2 ^ 64 := by
  by_cases hp : f.pointerBytes = 0
  · simp only [add, hp, if_true, bind_eq_ok, fit_eq_ok, Except.ok.injEq]
    constructor
    · intro h
      obtain ⟨_, ⟨rfl, hs⟩, _, rfl, _, ⟨rfl, ho⟩, rfl⟩ := h
      exact ⟨by simp [next, hp, startOf, sizeOf], hs, by simp, ho⟩
    · intro h
      obtain ⟨rfl, hs, -, ho⟩ := h
      exact ⟨_, ⟨rfl, hs⟩, _, rfl, _, ⟨rfl, ho⟩, by simp [next, hp, startOf, sizeOf]⟩
  · simp only [add, hp, if_false, bind_eq_ok, fit_eq_ok, Except.ok.injEq]
    constructor
    · intro h
      obtain ⟨_, ⟨rfl, hs⟩, _, ⟨rfl, he⟩, _, ⟨rfl, ho⟩, rfl⟩ := h
      exact ⟨by simp [next, hp, startOf, sizeOf], hs, fun _ => he, ho⟩
    · intro h
      obtain ⟨rfl, hs, he, ho⟩ := h
      exact ⟨_, ⟨rfl, hs⟩, _, ⟨rfl, he hp⟩, _, ⟨rfl, ho⟩, by simp [next, hp, startOf, sizeOf]⟩

/-- Of a sound field only the end has to fit: nothing else reaches further. -/
theorem add_eq_ok (hf : f.Sound) (last : Bool) :
    p.add f last = .ok q ↔ q = p.next f last ∧ q.offset < 2 ^ 64 := by
  have hsize := p.size_le_sizeOf f last
  have hpointers := hf.pointers_le
  rw [add_eq_ok_iff]
  constructor
  · intro h
    obtain ⟨rfl, -, -, ho⟩ := h
    exact ⟨rfl, ho⟩
  · intro h
    obtain ⟨rfl, ho⟩ := h
    have hfit : p.startOf f + p.sizeOf f last < 2 ^ 64 := ho
    exact ⟨rfl, by omega, by omega, hfit⟩

theorem offset_add_sum_le_nextAll (p : Placement) (hs : ∀ f ∈ fs, 0 < f.align) :
    p.offset + (fs.map (·.size)).sum ≤ (p.nextAll fs).offset := by
  induction fs generalizing p with
  | nil => simp [nextAll]
  | cons f fs ih =>
    have hstep := p.offset_add_size_le_next (hs f (by simp)) fs.isEmpty
    have hrest := ih (p.next f fs.isEmpty) fun g hg => hs g (by simp [hg])
    simp only [nextAll, List.map_cons, List.sum_cons]
    omega

theorem addAll_eq_ok (hs : ∀ f ∈ fs, f.Sound) (hp : p.offset < 2 ^ 64) :
    p.addAll (fs.map .ok) = .ok q ↔ q = p.nextAll fs ∧ q.offset < 2 ^ 64 := by
  induction fs generalizing p with
  | nil =>
    simp only [List.map_nil, addAll, nextAll, Except.ok.injEq]
    constructor
    · intro h
      subst h
      exact ⟨rfl, hp⟩
    · intro h
      obtain ⟨rfl, -⟩ := h
      rfl
  | cons f fs ih =>
    have hf := hs f (by simp)
    have hrest : ∀ g ∈ fs, g.Sound := fun g hg => hs g (by simp [hg])
    have hgrow := offset_add_sum_le_nextAll (p.next f fs.isEmpty) fun g hg => (hrest g hg).align_pos
    simp only [List.map_cons, addAll, nextAll, bind_eq_ok, Except.ok.injEq, List.isEmpty_map,
      exists_eq_left', add_eq_ok hf]
    constructor
    · intro h
      obtain ⟨p', ⟨rfl, hfit⟩, h⟩ := h
      exact (ih hrest hfit).mp h
    · intro h
      obtain ⟨rfl, hfit⟩ := h
      have hnext : (p.next f fs.isEmpty).offset < 2 ^ 64 := by omega
      exact ⟨_, ⟨rfl, hnext⟩, (ih hrest hnext).mpr ⟨rfl, hfit⟩⟩

theorem eq_nextAll_of_addAll {fields : List (Except LayoutError Footprint)}
    (h : p.addAll fields = .ok q) :
    ∃ fs : List Footprint, fields = fs.map .ok ∧ q = p.nextAll fs := by
  induction fields generalizing p with
  | nil =>
    cases h
    exact ⟨[], rfl, rfl⟩
  | cons field fields ih =>
    simp only [addAll, bind_eq_ok, add_eq_ok_iff] at h
    obtain ⟨f, rfl, p', ⟨rfl, -⟩, hrest⟩ := h
    obtain ⟨fs, rfl, rfl⟩ := ih hrest
    exact ⟨f :: fs, rfl, by simp [nextAll]⟩

theorem pointerEnd_le_next (hf : f.Sound) (hp : p.pointerEnd ≤ p.offset) (last : Bool) :
    (p.next f last).pointerEnd ≤ (p.next f last).offset := by
  have hstart := p.offset_le_startOf hf.align_pos
  have hsize := p.size_le_sizeOf f last
  have hpointers := hf.pointers_le
  simp only [next]
  split <;> omega

theorem pointerEnd_le_nextAll (hs : ∀ f ∈ fs, f.Sound) (hp : p.pointerEnd ≤ p.offset) :
    (p.nextAll fs).pointerEnd ≤ (p.nextAll fs).offset := by
  induction fs generalizing p with
  | nil => exact hp
  | cons f fs ih =>
    have hnext := pointerEnd_le_next (hs f (by simp)) hp fs.isEmpty
    exact ih (fun g hg => hs g (by simp [hg])) hnext

theorem pointerEnd_nextAll_of_pointerFree (p : Placement) (h : ∀ f ∈ fs, f.pointerBytes = 0) :
    (p.nextAll fs).pointerEnd = p.pointerEnd := by
  induction fs generalizing p with
  | nil => rfl
  | cons f fs ih =>
    rw [nextAll, ih _ fun g hg => h g (by simp [hg])]
    simp [next, h f (by simp)]

theorem align_nextAll (p : Placement) (fs : List Footprint) :
    (p.nextAll fs).align = (fs.map (·.align)).foldl max p.align := by
  induction fs generalizing p with
  | nil => rfl
  | cons f fs ih => simp only [nextAll, ih, List.map_cons, List.foldl_cons, next]

end Placement

def placed (fs : List Footprint) : Footprint := (Placement.empty.nextAll fs).close

variable {fs gs : List Footprint} {m : Footprint}

theorem le_foldl_max (xs : List Nat) (a : Nat) : a ≤ xs.foldl max a := by
  induction xs generalizing a with
  | nil => exact le_refl a
  | cons x xs ih => exact (le_max_left a x).trans (ih (max a x))

theorem mem_le_foldl_max {xs : List Nat} (a : Nat) {x : Nat} (hx : x ∈ xs) :
    x ≤ xs.foldl max a := by
  induction xs generalizing a with
  | nil => simp at hx
  | cons y ys ih =>
    obtain rfl | hx := List.mem_cons.mp hx
    · exact (le_max_right a x).trans (le_foldl_max ys _)
    · exact ih (max a y) hx

theorem foldl_max_mem (xs : List Nat) (a : Nat) : xs.foldl max a = a ∨ xs.foldl max a ∈ xs := by
  induction xs generalizing a with
  | nil => exact .inl rfl
  | cons x xs ih =>
    obtain h | h := ih (max a x)
    · rw [List.foldl_cons, h, List.mem_cons]
      exact (max_choice a x).imp_right .inl
    · exact .inr (List.mem_cons_of_mem x h)

theorem placed_align (fs : List Footprint) : (placed fs).align = (fs.map (·.align)).foldl max 1 :=
  Placement.empty.align_nextAll fs

theorem placed_align_pos (fs : List Footprint) : 0 < (placed fs).align := by
  rw [placed_align]
  exact le_foldl_max _ 1

theorem layOut_eq_ok (hs : ∀ f ∈ fs, f.Sound) :
    layOut (fs.map .ok) = .ok m ↔ m = placed fs ∧ m.size < 2 ^ 64 := by
  have hle := le_roundUp (Placement.empty.nextAll fs).offset (placed_align_pos fs)
  simp only [layOut, bind_eq_ok, Placement.finish, fit_eq_ok, Except.ok.injEq,
    Placement.addAll_eq_ok hs (show Placement.empty.offset < 2 ^ 64 by decide)]
  constructor
  · intro h
    obtain ⟨p, ⟨rfl, -⟩, size, ⟨rfl, hfit⟩, rfl⟩ := h
    exact ⟨rfl, hfit⟩
  · intro h
    obtain ⟨rfl, hfit⟩ := h
    exact ⟨_, ⟨rfl, lt_of_le_of_lt hle hfit⟩, _, ⟨rfl, hfit⟩, rfl⟩

theorem eq_placed_of_layOut {fields : List (Except LayoutError Footprint)}
    (h : layOut fields = .ok m) :
    ∃ fs : List Footprint, fields = fs.map .ok ∧ m = placed fs := by
  simp only [layOut, bind_eq_ok, Placement.finish, fit_eq_ok, Except.ok.injEq] at h
  obtain ⟨p, hp, size, ⟨rfl, -⟩, rfl⟩ := h
  obtain ⟨fs, rfl, rfl⟩ := Placement.eq_nextAll_of_addAll hp
  exact ⟨fs, rfl, rfl⟩

end FieldOrder
