import FieldOrder.Proofs.Finding
import FieldOrder.Proofs.Layout.Exactness
import Mathlib.Order.Bounds.Basic

/-!
Measuring with and without tracking of references. References end inside the value that holds them,
so that where they end is never the number that does not fit: both calculators accept the same
types, with the same sizes, alignments and errors. The orders they arrange fields in differ, but on
targets whose largest alignment does not exceed the word both are of the least possible size, which
makes the size findings the same.
-/
namespace FieldOrder

section Errors

variable {ε α β : Type}

theorem map_eq_ok {x : Except ε α} {g : α → β} {b : β} :
    g <$> x = .ok b ↔ ∃ a, x = .ok a ∧ b = g a := by
  cases x with
  | error e => simp [Functor.map, Except.map]
  | ok a => simp [Functor.map, Except.map, eq_comm]

theorem OnlyOverflows.map {x : Except LayoutError α} (hx : OnlyOverflows x) (g : α → β) :
    OnlyOverflows (g <$> x) := by
  rw [map_eq_pure_bind]
  exact hx.bind fun a => onlyOverflows_ok (g a)

end Errors

/-! ### Types -/

namespace Footprint

variable {e f : Footprint}

def untracked (f : Footprint) : Footprint := { f with pointerBytes := 0 }

theorem Sound.untracked (hf : f.Sound) : f.untracked.Sound := ⟨hf.align_pos, Nat.zero_le _⟩

theorem repeated_untracked (e : Footprint) (n : Nat) :
    e.untracked.repeated n = (e.repeated n).untracked := by
  cases n <;> rfl

theorem replicate_untracked (he : e.Sound) (n : Nat) :
    e.untracked.replicate n = untracked <$> e.replicate n := by
  cases n with
  | zero => rfl
  | succ n =>
    have hpointers := he.pointers_le
    refine OnlyOverflows.ext (onlyOverflows_replicate _ _) ((onlyOverflows_replicate _ _).map _)
      fun f => ?_
    rw [map_eq_ok, replicate_succ_eq_ok, repeated_untracked]
    constructor
    · intro h
      obtain ⟨rfl, hstride, hlast, hsize, -⟩ := h
      simp only [untracked] at hstride hlast hsize
      exact ⟨_, replicate_succ_eq_ok.mpr ⟨rfl, hstride, hlast, hsize, by omega⟩, rfl⟩
    · intro h
      obtain ⟨_, h, rfl⟩ := h
      obtain ⟨rfl, hstride, hlast, hsize, -⟩ := replicate_succ_eq_ok.mp h
      exact ⟨rfl, hstride, hlast, hsize, fun h => absurd rfl h⟩

end Footprint

namespace Placement

variable {f : Footprint}

def untracked (p : Placement) : Placement := { p with pointerEnd := 0 }

theorem next_untracked (p : Placement) (f : Footprint) (last : Bool) :
    p.untracked.next f.untracked last = (p.next f last).untracked := rfl

theorem add_untracked (p : Placement) (hf : f.Sound) (last : Bool) :
    p.untracked.add f.untracked last = untracked <$> p.add f last := by
  refine OnlyOverflows.ext (onlyOverflows_add _ _ _) ((onlyOverflows_add _ _ _).map _) fun q => ?_
  rw [map_eq_ok, add_eq_ok hf.untracked, next_untracked]
  constructor
  · intro h
    obtain ⟨rfl, hfit⟩ := h
    exact ⟨_, (add_eq_ok hf last).mpr ⟨rfl, hfit⟩, rfl⟩
  · intro h
    obtain ⟨_, h, rfl⟩ := h
    obtain ⟨rfl, hfit⟩ := (add_eq_ok hf last).mp h
    exact ⟨rfl, hfit⟩

theorem addAll_untracked (p : Placement) {fields : List (Except LayoutError Footprint)}
    (hs : ∀ f, .ok f ∈ fields → f.Sound) :
    p.untracked.addAll (fields.map (Footprint.untracked <$> ·)) =
      untracked <$> p.addAll fields := by
  induction fields generalizing p with
  | nil => rfl
  | cons field fields ih =>
    have hrest : ∀ f, .ok f ∈ fields → f.Sound := fun f hf => hs f (List.mem_cons_of_mem _ hf)
    cases field with
    | error e => rfl
    | ok f =>
      have hf : f.Sound := hs f List.mem_cons_self
      have hadd := p.add_untracked hf fields.isEmpty
      calc p.untracked.addAll ((.ok f :: fields).map (Footprint.untracked <$> ·))
          = p.untracked.add f.untracked fields.isEmpty >>=
              (·.addAll (fields.map (Footprint.untracked <$> ·))) := by
            rw [List.map_cons, addAll, List.isEmpty_map]
            rfl
        _ = p.add f fields.isEmpty >>= fun q => untracked <$> q.addAll fields := by
            rw [hadd, bind_map_left]
            simp only [ih _ hrest]
        _ = untracked <$> p.addAll (.ok f :: fields) := by
            rw [← map_bind, addAll]
            rfl

theorem finish_untracked (p : Placement) :
    p.untracked.finish = Footprint.untracked <$> p.finish := by
  rw [finish, finish, map_bind]
  rfl

end Placement

theorem layOut_untracked {fields : List (Except LayoutError Footprint)}
    (hs : ∀ f, .ok f ∈ fields → f.Sound) :
    layOut (fields.map (Footprint.untracked <$> ·)) = Footprint.untracked <$> layOut fields := by
  have hplaced := Placement.empty.addAll_untracked hs
  simp only [layOut, map_bind, ← Placement.finish_untracked]
  rw [← bind_map_left Placement.untracked, ← hplaced]
  rfl

namespace Calculator

variable {c : Calculator} {fields : List (Field Shape)}

def untracked (c : Calculator) : Calculator := ⟨c.target, false⟩

theorem leaf_untracked (c : Calculator) (size pointerBytes : Nat) :
    c.untracked.leaf size pointerBytes = Footprint.untracked <$> c.leaf size pointerBytes := by
  rw [leaf, leaf, map_bind]
  rfl

theorem measure_untracked (c : Calculator) (t : Shape) :
    c.untracked.measure t = Footprint.untracked <$> c.measure t := by
  induction t with
  | scalar _ | string | slice | pointer | interface =>
    rw [measure, measure]
    exact c.leaf_untracked _ _
  | array elem n ih =>
    rw [measure, measure, ih]
    cases he : c.measure elem with
    | error e => rfl
    | ok e => exact e.replicate_untracked (measure_sound he) n
  | struct fields ih =>
    have hsound : ∀ f, .ok f ∈ c.measureEach fields → f.Sound := by
      intro f hf
      rw [measureEach_eq_map] at hf
      obtain ⟨field, -, hfield⟩ := List.mem_map.mp hf
      exact measure_sound hfield
    have heach : c.untracked.measureEach fields =
        (c.measureEach fields).map (Footprint.untracked <$> ·) := by
      rw [measureEach_eq_map, measureEach_eq_map, List.map_map]
      exact List.map_congr_left ih
    rw [measure, measure, heach, layOut_untracked hsound]
  | unresolved name =>
    rw [measure, measure]
    rfl

theorem measureStruct_untracked (c : Calculator) (fields : List (Field Shape)) :
    c.untracked.measureStruct fields = Footprint.untracked <$> c.measureStruct fields := by
  have h := c.measure_untracked (.struct fields)
  rwa [measure, measure] at h

/-! ### Findings -/

theorem inspect_of_measureStruct_error {ρ : Type} {position : ρ} {e : LayoutError}
    (h : c.measureStruct fields = .error e) : c.inspect (.struct fields) position = .error e := by
  rw [inspect, h]
  rfl

theorem sizes_achievable_untracked (c : Calculator) (fields : List (Field Shape)) :
    (·.size) '' c.untracked.achievable fields = (·.size) '' c.achievable fields := by
  ext size
  constructor
  · intro h
    obtain ⟨_, ⟨q, hq, hm⟩, rfl⟩ := h
    rw [measureStruct_untracked, map_eq_ok] at hm
    obtain ⟨m, hm, rfl⟩ := hm
    exact ⟨m, ⟨q, hq, hm⟩, rfl⟩
  · intro h
    obtain ⟨m, ⟨q, hq, hm⟩, rfl⟩ := h
    refine ⟨m.untracked, ⟨q, hq, ?_⟩, rfl⟩
    rw [measureStruct_untracked, hm]
    rfl

section WideWord

variable (hc : c.target.maxAlign ≤ c.target.word)
include hc

theorem arrange_size_isLeast {a : Arrangement} (ha : c.arrange fields = .ok a) :
    IsLeast ((·.size) '' c.achievable fields) a.layout.size := by
  obtain ⟨m, hm, -, hl⟩ := achievable_of_arrange ha
  refine ⟨⟨m, hm, by rw [hl]; rfl⟩, fun size hsize => ?_⟩
  obtain ⟨n, hn, rfl⟩ := hsize
  exact arrange_size_le ((measurable_of_achievable hn).packed hc) ha hn

/-- The arranged orders may differ, but not in size: both are of the least. -/
theorem arrange_size_untracked {a b : Arrangement} (ha : c.arrange fields = .ok a)
    (hb : c.untracked.arrange fields = .ok b) : b.layout.size = a.layout.size := by
  have htracked := arrange_size_isLeast hc ha
  have huntracked := arrange_size_isLeast (show c.untracked.target.maxAlign ≤ _ from hc) hb
  rw [sizes_achievable_untracked] at huntracked
  exact huntracked.unique htracked

theorem exists_arrange_of_measureStruct {m : Footprint} (hm : c.measureStruct fields = .ok m) :
    ∃ a, c.arrange fields = .ok a :=
  exists_arrange ((measurable_of_measureStruct hm).packed hc) (mem_achievable hm)

end WideWord

/-- Without tracking, a type has the same size and alignment as with tracking and no pointer bytes,
or it cannot be measured for the same reason. Where the largest alignment does not exceed the word,
there are then no pointer findings, and a size finding is made exactly if it is made with tracking,
about the same two sizes. -/
theorem untracked_agrees (t : Target) :
    (∀ s : Shape,
      (∃ e, (Calculator.mk t true).measure s = .error e ∧
        (Calculator.mk t false).measure s = .error e) ∨
      ∃ f, (Calculator.mk t true).measure s = .ok f ∧
        (Calculator.mk t false).measure s = .ok ⟨f.size, f.align, 0⟩) ∧
    (t.maxAlign ≤ t.word → ∀ (ρ : Type) (fields : List (Field Shape)) (position : ρ),
      (∃ e, (Calculator.mk t true).inspect (.struct fields) position = .error e ∧
        (Calculator.mk t false).inspect (.struct fields) position = .error e) ∨
      ∃ tracked untracked : List (Finding ρ),
        (Calculator.mk t true).inspect (.struct fields) position = .ok tracked ∧
        (Calculator.mk t false).inspect (.struct fields) position = .ok untracked ∧
        (∀ f ∈ untracked, f.kind ≠ .pointerBytes) ∧
        ((∃ f ∈ untracked, f.kind = .size) ↔ ∃ f ∈ tracked, f.kind = .size) ∧
        ∀ f ∈ untracked, ∀ g ∈ tracked, f.kind = .size → g.kind = .size →
          f.numbers = g.numbers) := by
  refine ⟨fun s => ?_, fun hc ρ fields position => ?_⟩
  · have hs := measure_untracked ⟨t, true⟩ s
    cases htracked : (Calculator.mk t true).measure s with
    | error e =>
      rw [htracked] at hs
      exact .inl ⟨e, rfl, hs⟩
    | ok f =>
      rw [htracked] at hs
      exact .inr ⟨f, rfl, hs⟩
  · have hdeclared := measureStruct_untracked ⟨t, true⟩ fields
    cases hm : (Calculator.mk t true).measureStruct fields with
    | error e =>
      rw [hm] at hdeclared
      exact .inl ⟨e, inspect_of_measureStruct_error hm, inspect_of_measureStruct_error hdeclared⟩
    | ok m =>
      rw [hm] at hdeclared
      obtain ⟨a, ha⟩ := exists_arrange_of_measureStruct (c := ⟨t, true⟩) hc hm
      obtain ⟨b, hb⟩ := exists_arrange_of_measureStruct (c := ⟨t, false⟩) hc hdeclared
      have hsize : b.layout.size = a.layout.size := arrange_size_untracked hc ha hb
      have hnone : b.layout.pointerBytes = 0 := pointerBytes_of_arrange_untracked rfl hb
      refine .inr ⟨_, _, inspect_struct_eq_ok.mpr ⟨m, a, hm, ha, rfl⟩,
        inspect_struct_eq_ok.mpr ⟨m.untracked, b, hdeclared, hb, rfl⟩, fun f hf hkind => ?_, ?_,
        fun f hf g hg hfk hgk => ?_⟩
      · have hne := (exists_finding_between .pointerBytes).mp ⟨f, hf, hkind⟩
        exact hne hnone.symm
      · rw [exists_finding_between, exists_finding_between, Layout.amount, Layout.amount, hsize]
        rfl
      · rw [numbers_of_mem hf, numbers_of_mem hg, hfk, hgk]
        exact Prod.ext rfl hsize

def mixedFields : List (Field Shape) :=
  [⟨"a", .scalar .bool, 0⟩, ⟨"n", .scalar (.int .w64), 1⟩, ⟨"p", .pointer, 2⟩,
    ⟨"b", .scalar .bool, 3⟩]

theorem untracked_agrees_of_mixed :
    Profile.amd64.target.maxAlign ≤ Profile.amd64.target.word ∧
    (Calculator.mk Profile.amd64.target true).inspect (.struct mixedFields) () =
      .ok [⟨(), .size, ⟨32, 24⟩, ⟨24, 8⟩, ["p", "n", "a", "b"]⟩,
        ⟨(), .pointerBytes, ⟨32, 24⟩, ⟨24, 8⟩, ["p", "n", "a", "b"]⟩] ∧
    ∃ untracked, (Calculator.mk Profile.amd64.target false).inspect (.struct mixedFields) () =
        .ok untracked ∧
      (∀ f ∈ untracked, f.kind ≠ .pointerBytes) ∧
      ∃ f ∈ untracked, f.kind = .size ∧ f.numbers = (32, 24) := by
  have hc : Profile.amd64.target.maxAlign ≤ Profile.amd64.target.word := by decide
  have htracked : (Calculator.mk Profile.amd64.target true).inspect (.struct mixedFields) () =
      .ok [⟨(), .size, ⟨32, 24⟩, ⟨24, 8⟩, ["p", "n", "a", "b"]⟩,
        ⟨(), .pointerBytes, ⟨32, 24⟩, ⟨24, 8⟩, ["p", "n", "a", "b"]⟩] := by cbv
  refine ⟨hc, htracked, ?_⟩
  obtain ⟨e, he, -⟩ | ⟨tracked, untracked, ht, hu, hnone, hsome, hsame⟩ :=
    (untracked_agrees Profile.amd64.target).2 hc Unit mixedFields ()
  · cases htracked.symm.trans he
  · cases htracked.symm.trans ht
    obtain ⟨f, hf, hkind⟩ := hsome.mpr ⟨_, .head _, rfl⟩
    exact ⟨untracked, hu, hnone, f, hf, hkind, hsame f hf _ (.head _) hkind rfl⟩

end Calculator

end FieldOrder
