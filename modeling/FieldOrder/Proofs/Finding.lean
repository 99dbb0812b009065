import FieldOrder.Finding
import FieldOrder.Proofs.Layout.Optimality
import Mathlib.Order.Bounds.Defs
import Mathlib.Data.Set.Image
import Mathlib.Data.List.Permutation

/-! What findings say. A finding is made where the declared and the arranged order differ; since no
order is better than the arranged one, this is where some order is better than the declared one. On
the one profile whose words are shorter than its largest alignment, findings can be the wrong way
round. -/
namespace FieldOrder

def Layout.amount (l : Layout) : FindingKind → Nat
  | .size => l.size
  | .pointerBytes => l.pointerBytes

variable {ρ : Type} {actual optimal : Layout} {position : ρ} {suggested : List String}

theorem exists_finding_between (kind : FindingKind) :
    (∃ f ∈ findingsBetween actual optimal position suggested, f.kind = kind) ↔
      actual.amount kind ≠ optimal.amount kind := by
  by_cases hs : actual.size = optimal.size <;>
    by_cases hp : actual.pointerBytes = optimal.pointerBytes <;>
    cases kind <;> simp [findingsBetween, Layout.amount, hs, hp]

theorem numbers_of_mem {f : Finding ρ} (h : f ∈ findingsBetween actual optimal position suggested) :
    f.numbers = (actual.amount f.kind, optimal.amount f.kind) := by
  rw [findingsBetween, List.mem_append] at h
  cases h with
  | inl h =>
    split at h
    · rw [List.mem_singleton.mp h]
      rfl
    · simp at h
  | inr h =>
    split at h
    · rw [List.mem_singleton.mp h]
      rfl
    · simp at h

theorem Profile.maxAlign_le_word {p : Profile} (hp : p ≠ .amd64p32) :
    p.target.maxAlign ≤ p.target.word := by
  cases p <;> first | decide | exact absurd rfl hp

namespace Calculator

variable {c : Calculator} {fields : List (Field Shape)} {m : Footprint} {a : Arrangement}

theorem inspect_struct_eq_ok {findings : List (Finding ρ)} :
    c.inspect (.struct fields) position = .ok findings ↔
      ∃ m a, c.measureStruct fields = .ok m ∧ c.arrange fields = .ok a ∧
        findings = findingsBetween m.layout a.layout position a.names := by
  simp only [inspect, bind_eq_ok, Except.ok.injEq]
  constructor
  · intro h
    obtain ⟨m, hm, a, ha, hf⟩ := h
    exact ⟨m, a, hm, ha, hf.symm⟩
  · intro h
    obtain ⟨m, a, hm, ha, hf⟩ := h
    exact ⟨m, hm, a, ha, hf.symm⟩

theorem inspect_of_minimal (kind : FindingKind) (hm : c.measureStruct fields = .ok m)
    (ha : c.arrange fields = .ok a)
    (hmin : ∀ n ∈ c.achievable fields, a.layout.amount kind ≤ n.layout.amount kind) :
    ∃ findings : List (Finding ρ), c.inspect (.struct fields) position = .ok findings ∧
      ((∃ f ∈ findings, f.kind = kind) ↔
        ∃ n ∈ c.achievable fields, n.layout.amount kind < m.layout.amount kind) ∧
      ∀ f ∈ findings, f.kind = kind →
        IsLeast ((·.layout.amount kind) '' c.achievable fields) f.numbers.2 := by
  have hle := hmin m (mem_achievable hm)
  obtain ⟨o, ho, -, hl⟩ := achievable_of_arrange ha
  refine ⟨_, inspect_struct_eq_ok.mpr ⟨m, a, hm, ha, rfl⟩, ?_, fun f hf hk => ?_⟩
  · rw [exists_finding_between]
    constructor
    · intro hne
      refine ⟨o, ho, ?_⟩
      rw [← hl]
      omega
    · intro h
      obtain ⟨n, hn, hlt⟩ := h
      have hn' := hmin n hn
      omega
  · rw [numbers_of_mem hf, hk]
    refine ⟨⟨o, ho, by rw [hl]⟩, fun x hx => ?_⟩
    obtain ⟨n, hn, rfl⟩ := hx
    exact hmin n hn

/-- On a target whose largest alignment does not exceed the word, fields that can be laid out in any
order are arranged in one of the least possible size, which is the sum of their sizes rounded up to
their largest alignment. A size finding is made exactly if the declared order is larger. -/
theorem arrange_minimizes_size (c : Calculator) (hc : c.target.maxAlign ≤ c.target.word)
    (fields : List (Field Shape)) :
    ((c.achievable fields).Nonempty →
      ∃ (a : Arrangement) (gs : List Footprint), c.arrange fields = .ok a ∧
        c.measureEach fields = gs.map .ok ∧
        a.layout.size = roundUp (gs.map (·.size)).sum ((gs.map (·.align)).foldl max 1) ∧
        ∀ m ∈ c.achievable fields, a.layout.size ≤ m.size) ∧
    ∀ (ρ : Type) (position : ρ) (actual : Footprint), c.measureStruct fields = .ok actual →
      ∃ findings, c.inspect (.struct fields) position = .ok findings ∧
        ((∃ f ∈ findings, f.kind = .size) ↔ ∃ m ∈ c.achievable fields, m.size < actual.size) ∧
        ∀ f ∈ findings, f.kind = .size →
          IsLeast ((·.size) '' c.achievable fields) f.numbers.2 := by
  constructor
  · intro hsome
    obtain ⟨m, hm⟩ := hsome
    have hfields := measurable_of_achievable hm
    have hpacked := hfields.packed hc
    obtain ⟨a, ha⟩ := exists_arrange hpacked hm
    refine ⟨a, fields.map c.footprintOf, ha, hfields.measureEach, ?_,
      fun n hn => arrange_size_le hpacked ha hn⟩
    obtain ⟨_, -, rfl, hl⟩ := achievable_of_arrange ha
    have hperm := (c.ordered_perm fields).map c.footprintOf
    rw [hl, Footprint.layout, hpacked.placed_size, (hperm.map (·.size)).sum_eq,
      (hperm.map (·.align)).foldl_eq]
  · intro ρ position actual hactual
    have hpacked := (measurable_of_measureStruct hactual).packed hc
    obtain ⟨a, ha⟩ := exists_arrange hpacked (mem_achievable hactual)
    exact inspect_of_minimal .size hactual ha fun n hn => arrange_size_le hpacked ha hn

def paddedFields : List (Field Shape) :=
  [⟨"a", .scalar .bool, 0⟩, ⟨"b", .scalar (.int .w64), 1⟩, ⟨"c", .scalar .bool, 2⟩]

theorem arrange_minimizes_size_of_padded :
    (Calculator.mk Profile.amd64.target true).measureStruct paddedFields = .ok ⟨24, 8, 0⟩ ∧
    (∃ a, (Calculator.mk Profile.amd64.target true).arrange paddedFields = .ok a ∧
      a.layout.size = 16) ∧
    ∃ findings, (Calculator.mk Profile.amd64.target true).inspect (.struct paddedFields) () =
      .ok findings ∧ ∃ f ∈ findings, f.kind = .size := by
  have hdeclared : (Calculator.mk Profile.amd64.target true).measureStruct paddedFields =
      .ok ⟨24, 8, 0⟩ := rfl
  have heach : (Calculator.mk Profile.amd64.target true).measureEach paddedFields =
      [⟨1, 1, 0⟩, ⟨8, 8, 0⟩, ⟨1, 1, 0⟩].map .ok := rfl
  obtain ⟨hsize, hinspect⟩ := arrange_minimizes_size ⟨Profile.amd64.target, true⟩ (by decide)
    paddedFields
  obtain ⟨a, gs, ha, hgs, hsum, hle⟩ := hsize ⟨_, mem_achievable hdeclared⟩
  have hgs' : [⟨1, 1, 0⟩, ⟨8, 8, 0⟩, ⟨1, 1, 0⟩] = gs :=
    List.map_injective_iff.mpr (fun x y h => by injection h) (heach.symm.trans hgs)
  have h16 : a.layout.size = 16 := by
    rw [hsum, ← hgs']
    rfl
  obtain ⟨findings, hf, hiff, -⟩ := hinspect Unit () _ hdeclared
  refine ⟨hdeclared, ⟨a, ha, h16⟩, findings, hf, hiff.mpr ?_⟩
  obtain ⟨m, hm, -, hl⟩ := achievable_of_arrange ha
  have hm16 : m.size = 16 := by
    rw [← h16, hl]
    rfl
  exact ⟨m, hm, by simp [hm16]⟩

/-- On such a target, the order of least size is also one in which the references end first. A
pointer finding is made exactly if they end later in the declared order. -/
theorem arrange_minimizes_pointerBytes (c : Calculator)
    (hc : c.target.maxAlign ≤ c.target.word) (fields : List (Field Shape)) :
    (∀ a, c.arrange fields = .ok a → ∀ m ∈ c.achievable fields,
      a.layout.size ≤ m.size ∧ a.layout.pointerBytes ≤ m.pointerBytes) ∧
    ∀ (ρ : Type) (position : ρ) (actual : Footprint), c.measureStruct fields = .ok actual →
      ∃ findings, c.inspect (.struct fields) position = .ok findings ∧
        ((∃ f ∈ findings, f.kind = .pointerBytes) ↔
          ∃ m ∈ c.achievable fields, m.pointerBytes < actual.pointerBytes) ∧
        ∀ f ∈ findings, f.kind = .pointerBytes →
          IsLeast ((·.pointerBytes) '' c.achievable fields) f.numbers.2 := by
  constructor
  · intro a ha m hm
    have hfields := measurable_of_achievable hm
    exact ⟨arrange_size_le (hfields.packed hc) ha hm,
      arrange_pointerBytes_le (hfields.packed hc) (hfields.pointers_on_top hc) ha hm⟩
  · intro ρ position actual hactual
    have hfields := measurable_of_measureStruct hactual
    obtain ⟨a, ha⟩ := exists_arrange (hfields.packed hc) (mem_achievable hactual)
    exact inspect_of_minimal .pointerBytes hactual ha fun n hn =>
      arrange_pointerBytes_le (hfields.packed hc) (hfields.pointers_on_top hc) ha hn

def interleavedFields : List (Field Shape) :=
  [⟨"p", .pointer, 0⟩, ⟨"n", .scalar (.int .w32), 1⟩, ⟨"q", .pointer, 2⟩]

theorem arrange_minimizes_pointerBytes_of_interleaved :
    (Calculator.mk Profile.amd64.target true).measureStruct interleavedFields = .ok ⟨24, 8, 24⟩ ∧
    ∃ findings, (Calculator.mk Profile.amd64.target true).inspect (.struct interleavedFields) () =
      .ok findings ∧ ∃ f ∈ findings, f.kind = .pointerBytes := by
  have hdeclared : (Calculator.mk Profile.amd64.target true).measureStruct interleavedFields =
      .ok ⟨24, 8, 24⟩ := rfl
  have hgrouped : (Calculator.mk Profile.amd64.target true).measureStruct
      [⟨"p", .pointer, 0⟩, ⟨"q", .pointer, 2⟩, ⟨"n", .scalar (.int .w32), 1⟩] =
      .ok ⟨24, 8, 16⟩ := rfl
  obtain ⟨findings, hf, hiff, -⟩ := (arrange_minimizes_pointerBytes
    ⟨Profile.amd64.target, true⟩ (by decide) interleavedFields).2 Unit () _ hdeclared
  exact ⟨hdeclared, findings, hf,
    hiff.mpr ⟨_, ⟨_, (List.Perm.swap _ _ _).cons _, hgrouped⟩, by decide⟩⟩

/-! ### Improvements -/

def Improves (c : Calculator) (kind : FindingKind) : Prop :=
  ∀ (ρ : Type) (shape : Shape) (position : ρ) (findings : List (Finding ρ)),
    c.inspect shape position = .ok findings →
      ∀ f ∈ findings, f.kind = kind → f.numbers.2 < f.numbers.1

theorem exists_fields_of_inspect {shape : Shape} {findings : List (Finding ρ)}
    (h : c.inspect shape position = .ok findings) : ∃ fields, shape = .struct fields := by
  cases shape with
  | struct fields => exact ⟨fields, rfl⟩
  | scalar _ | string | array _ _ | slice | pointer | interface | unresolved _ => cases h

theorem numbers_lt_of_minimal {kind : FindingKind} {findings : List (Finding ρ)}
    (h : c.inspect (.struct fields) position = .ok findings)
    (hmin : ∀ a, c.arrange fields = .ok a →
      ∀ n ∈ c.achievable fields, a.layout.amount kind ≤ n.layout.amount kind) :
    ∀ f ∈ findings, f.kind = kind → f.numbers.2 < f.numbers.1 := by
  intro f hf hk
  obtain ⟨m, a, hm, ha, rfl⟩ := inspect_struct_eq_ok.mp h
  have hne := (exists_finding_between kind).mp ⟨f, hf, hk⟩
  have hle := hmin a ha m (mem_achievable hm)
  rw [numbers_of_mem hf, hk]
  exact lt_of_le_of_ne hle hne.symm

theorem pointerBytes_of_untracked (hc : c.tracking = false) (hm : m ∈ c.achievable fields) :
    m.pointerBytes = 0 := by
  have hinvariant : c.Invariant fun f => f.pointerBytes = 0 := by
    refine ⟨fun k => by simp [leafFootprint], fun n m _ _ _ => by simp [leafFootprint, hc],
      fun e n he => ?_, fun fs hs => Placement.empty.pointerEnd_nextAll_of_pointerFree hs⟩
    cases n <;> simp [Footprint.repeated, he]
  obtain ⟨q, -, hq⟩ := hm
  exact hinvariant.measure (.struct q) m (by rw [measure]; exact hq)

theorem pointerBytes_of_arrange_untracked (hc : c.tracking = false)
    (ha : c.arrange fields = .ok a) : a.layout.pointerBytes = 0 := by
  obtain ⟨m, hm, -, hl⟩ := achievable_of_arrange ha
  rw [hl]
  exact pointerBytes_of_untracked hc hm

theorem improves_of_untracked (hc : c.tracking = false) : c.Improves .pointerBytes := by
  intro ρ shape position findings h
  obtain ⟨fields, rfl⟩ := exists_fields_of_inspect h
  refine numbers_lt_of_minimal h fun a ha n hn => ?_
  exact (pointerBytes_of_arrange_untracked hc ha).le.trans (Nat.zero_le _)

theorem improves_of_wide_word (hc : c.target.maxAlign ≤ c.target.word) (kind : FindingKind) :
    c.Improves kind := by
  intro ρ shape position findings h
  obtain ⟨fields, rfl⟩ := exists_fields_of_inspect h
  refine numbers_lt_of_minimal h fun a ha n hn => ?_
  have hfields := measurable_of_achievable hn
  cases kind with
  | size => exact arrange_size_le (hfields.packed hc) ha hn
  | pointerBytes =>
    exact arrange_pointerBytes_le (hfields.packed hc) (hfields.pointers_on_top hc) ha hn

/-- A slice of three short words, which is not as long as a multiple of its alignment, and two
numbers, one of which fits behind it. -/
def raggedFields : List (Field Shape) :=
  [⟨"s", .slice, 0⟩, ⟨"n", .scalar (.int .w32), 1⟩, ⟨"m", .scalar (.int .w64), 2⟩]

theorem inspect_ragged (tracking : Bool) :
    (Calculator.mk Profile.amd64p32.target tracking).inspect (.struct raggedFields) () =
      .ok [⟨(), .size, ⟨24, if tracking then 4 else 0⟩, ⟨32, if tracking then 4 else 0⟩,
        ["s", "m", "n"]⟩] := by
  cases tracking <;> cbv

def shortPointerFields : List (Field Shape) :=
  [⟨"p", .pointer, 0⟩, ⟨"n", .scalar (.int .w64), 1⟩]

theorem inspect_shortPointer :
    (Calculator.mk Profile.amd64p32.target true).inspect (.struct shortPointerFields) () =
      .ok [⟨(), .pointerBytes, ⟨16, 4⟩, ⟨16, 12⟩, ["n", "p"]⟩] := by
  cbv

/-- On every profile but the one with words shorter than its largest alignment, each finding is an
improvement. On that one it need not be, unless it is about references that are not tracked; but
also there it is for fields whose sizes are multiples of their alignments, and, if it is about
references, of which none without references is aligned more strictly than one with them. -/
theorem improves_iff_of_profile (p : Profile) (tracking : Bool) :
    (∀ kind, (Calculator.mk p.target tracking).Improves kind ↔
      p ≠ .amd64p32 ∨ kind = .pointerBytes ∧ tracking = false) ∧
    ∀ (ρ : Type) (position : ρ) (fields : List (Field Shape)) (findings : List (Finding ρ))
      (gs : List Footprint),
      (Calculator.mk p.target tracking).inspect (.struct fields) position = .ok findings →
      (Calculator.mk p.target tracking).measureEach fields = gs.map .ok →
      (∀ g ∈ gs, g.align ∣ g.size) →
      ∀ f ∈ findings, f.kind = .size ∨
          (∀ g ∈ gs, g.pointerBytes ≠ 0 → ∀ h ∈ gs, h.size ≠ 0 → h.align ≤ g.align) →
        f.numbers.2 < f.numbers.1 := by
  constructor
  · intro kind
    constructor
    · intro himproves
      by_contra hno
      obtain ⟨hp, hkind⟩ := not_or.mp hno
      obtain rfl : p = .amd64p32 := not_not.mp hp
      cases kind with
      | size =>
        have hlt := himproves Unit _ () _ (inspect_ragged tracking) _
          (List.mem_singleton_self _) rfl
        simp [Finding.numbers] at hlt
      | pointerBytes =>
        obtain rfl : tracking = true := by simpa using hkind
        have hlt := himproves Unit _ () _ inspect_shortPointer _
          (List.mem_singleton_self _) rfl
        simp [Finding.numbers] at hlt
    · intro h
      obtain hp | ⟨rfl, rfl⟩ := h
      · exact improves_of_wide_word (Profile.maxAlign_le_word hp) kind
      · exact improves_of_untracked rfl
  · intro ρ position fields findings gs h hgs hsize f hf hkind
    have hfields := measurable_of_measureEach hgs
    obtain rfl : gs = fields.map (footprintOf _) :=
      (List.map_injective_iff.mpr (fun x y h => by injection h)
        (hfields.measureEach.symm.trans hgs)).symm
    have hpacked := hfields.packed_ordered p.maxAlign_le_two_words fun f hf =>
      hsize _ (List.mem_map_of_mem hf)
    refine numbers_lt_of_minimal h (fun a ha n hn => ?_) f hf rfl
    cases hk : f.kind with
    | size => exact arrange_size_le hpacked ha hn
    | pointerBytes =>
      have htop := hkind.resolve_left (by simp [hk])
      exact arrange_pointerBytes_le hpacked (fun f hf hfp g hg hgs =>
        htop _ (List.mem_map_of_mem hf) hfp _ (List.mem_map_of_mem hg) hgs) ha hn

theorem improves_iff_of_profile_padded :
    ∃ findings, (Calculator.mk Profile.amd64p32.target true).inspect (.struct paddedFields) () =
      .ok findings ∧ findings ≠ [] ∧ ∀ f ∈ findings, f.numbers.2 < f.numbers.1 := by
  have hinspect : (Calculator.mk Profile.amd64p32.target true).inspect (.struct paddedFields) () =
      .ok [⟨(), .size, ⟨24, 0⟩, ⟨16, 0⟩, ["b", "a", "c"]⟩] := by cbv
  refine ⟨_, hinspect, by simp, fun f hf => ?_⟩
  have hkind : f.kind = .size := by rw [List.mem_singleton.mp hf]
  exact (improves_iff_of_profile .amd64p32 true).2 Unit () paddedFields _
    [⟨1, 1, 0⟩, ⟨8, 8, 0⟩, ⟨1, 1, 0⟩] hinspect rfl (by decide) f hf (.inl hkind)

end Calculator

end FieldOrder
