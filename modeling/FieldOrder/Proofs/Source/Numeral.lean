import FieldOrder.Proofs.Source.ByteOffsets
import FieldOrder.Source.Numeral
import Mathlib.Data.Nat.Digits.Defs

/-! Integer literals and what they spell. A literal without its underscores is a row of digits
behind a prefix for the radix, behind a zero that stands for radix eight, or on its own. The value
of a literal is the number that it spells, if this fits in 64 bits; and a number token that has a
value spells it. -/
namespace FieldOrder.Source

def IsDigit (radix : Nat) (c : Char) (d : Nat) : Prop :=
  d < radix ∧ (c = d.digitChar ∨ c = d.digitChar.toUpper)

def IsRow (radix : Nat) (cs : List Char) (n : Nat) : Prop :=
  cs ≠ [] ∧ ∃ ds, List.Forall₂ (IsDigit radix) cs ds ∧ n = Nat.ofDigits radix ds.reverse

def radixPrefixes : List (Char × Nat) :=
  [('x', 16), ('X', 16), ('o', 8), ('O', 8), ('b', 2), ('B', 2)]

inductive Spells (n : Nat) : List Char → Prop
  | decimal {cs : List Char} (h : IsRow 10 cs n) (hzero : cs.head? = some '0' → cs = ['0']) :
    Spells n cs
  | prefixed {x : Char} {radix : Nat} {cs : List Char} (hx : (x, radix) ∈ radixPrefixes)
    (h : IsRow radix cs n) : Spells n ('0' :: x :: cs)
  | octal {cs : List Char} (h : IsRow 8 cs n) : Spells n ('0' :: cs)

def withoutUnderscores (text : String) : List Char := text.toList.filter (· != '_')

/-! ### Digits and rows of digits -/

theorem toNat_toLower (c : Char) :
    c.toLower.toNat = if 65 ≤ c.toNat ∧ c.toNat ≤ 90 then c.toNat + 32 else c.toNat := by
  delta Char.toLower
  simp only [Char.toNat, ge_iff_le, UInt32.le_iff_toNat_le, Char.reduceVal, UInt32.reduceToNat]
  split
  · rename_i h
    simp only [UInt32.toNat_add, UInt32.reduceSub, UInt32.reduceToNat]
    omega
  · rfl

theorem digitChar_toNat {d : Nat} (h : d < 16) :
    d.digitChar.toNat = (if d < 10 then 48 + d else 87 + d) ∧
    d.digitChar.toUpper.toNat = if d < 10 then 48 + d else 55 + d := by
  revert d
  decide

theorem digit?_eq_some_iff {radix d : Nat} {c : Char} : Text.digit? radix c = some d ↔
    d < radix ∧ (48 ≤ c.toNat ∧ c.toNat ≤ 57 ∧ d + 48 = c.toNat ∨
      97 ≤ c.toNat ∧ c.toNat ≤ 122 ∧ d + 87 = c.toNat) := by
  have hdigit : c.isDigit = true ↔ 48 ≤ c.toNat ∧ c.toNat ≤ 57 := by
    simp only [Char.isDigit, Bool.and_eq_true, decide_eq_true_eq, ge_iff_le, UInt32.le_iff_toNat_le,
      Char.reduceVal, UInt32.reduceToNat, Char.toNat]
  have hlower : c.isLower = true ↔ 97 ≤ c.toNat ∧ c.toNat ≤ 122 := by
    delta Char.isLower
    simp only [Bool.and_eq_true, decide_eq_true_eq, ge_iff_le, UInt32.le_iff_toNat_le,
      Char.reduceVal, UInt32.reduceToNat, Char.toNat]
  simp only [Text.digit?, hdigit, hlower, Char.reduceToNat]
  split
  · simp only [Option.filter_some, decide_eq_true_eq, Option.ite_none_right_eq_some,
      Option.some.injEq]
    omega
  · split
    · simp only [Option.filter_some, decide_eq_true_eq, Option.ite_none_right_eq_some,
        Option.some.injEq]
      omega
    · simp only [Option.filter_none, reduceCtorEq, false_iff]
      omega

theorem digit?_toLower_iff {radix d : Nat} {c : Char} (hradix : radix ≤ 16) :
    Text.digit? radix c.toLower = some d ↔ IsDigit radix c d := by
  rw [digit?_eq_some_iff, toNat_toLower, IsDigit]
  refine and_congr_right fun hd => ?_
  obtain ⟨hlow, hup⟩ := digitChar_toNat (d := d) (by omega)
  rw [← Char.toNat_inj, ← Char.toNat_inj, hlow, hup]
  split <;> split <;> omega

theorem foldlM_digit?_eq_some_iff {radix : Nat} (hradix : radix ≤ 16) {cs : List Char} {m n : Nat} :
    (cs.map Char.toLower).foldlM (fun n c => (Text.digit? radix c).map (n * radix + ·)) m = some n ↔
      ∃ ds, List.Forall₂ (IsDigit radix) cs ds ∧ n = Nat.ofDigits radix (ds.reverse ++ [m]) := by
  induction cs generalizing m with
  | nil => simp [eq_comm]
  | cons c cs ih =>
    simp only [List.map_cons, List.foldlM_cons, Option.bind_eq_bind, Option.bind_eq_some_iff,
      Option.map_eq_some_iff, digit?_toLower_iff hradix, ih, List.forall₂_cons_left_iff]
    have hplace (d : Nat) (ds : List Nat) : Nat.ofDigits radix ((d :: ds).reverse ++ [m]) =
        Nat.ofDigits radix (ds.reverse ++ [m * radix + d]) := by
      simp [Nat.ofDigits_append, Nat.ofDigits_cons, Nat.mul_comm, Nat.add_comm]
    constructor
    · intro h
      obtain ⟨_, ⟨d, hd, rfl⟩, ds, hds, rfl⟩ := h
      exact ⟨d :: ds, ⟨d, ds, hd, hds, rfl⟩, (hplace d ds).symm⟩
    · intro h
      obtain ⟨_, ⟨d, ds, hd, hds, rfl⟩, rfl⟩ := h
      exact ⟨_, ⟨d, hd, rfl⟩, ds, hds, hplace d ds⟩

theorem digits?_eq_some_iff {radix : Nat} (hradix : radix ≤ 16) {cs : List Char} (hcs : cs ≠ [])
    {n : Nat} :
    Text.digits? radix (cs.map Char.toLower) = some n ↔ IsRow radix cs n := by
  have hzero (ds : List Nat) :
    Nat.ofDigits radix (ds.reverse ++ [0]) = Nat.ofDigits radix ds.reverse := by
    simp [Nat.ofDigits_append]
  rw [Text.digits?, foldlM_digit?_eq_some_iff hradix]
  simp [IsRow, hcs, hzero]

/-- A character that is small or no letter is not a capital made small, unless the capital is
given. -/
theorem eq_of_toLower {c x : Char} (h : c.toLower = x) :
    c = x ∨ 65 ≤ c.toNat ∧ c.toNat ≤ 90 ∧ c.toNat + 32 = x.toNat := by
  have hnat := congrArg Char.toNat h
  rw [toNat_toLower] at hnat
  split at hnat
  · exact .inr (by omega)
  · exact .inl (Char.toNat_inj.mp hnat)

theorem unsigned?_toLower (radix : Nat) {cs : List Char} (hplus : cs.head? ≠ some '+')
    (hcs : cs ≠ []) :
    Text.unsigned? radix (cs.map Char.toLower) =
      (Text.digits? radix (cs.map Char.toLower)).filter (· < 2 ^ 64) := by
  have hplus' : (cs.map Char.toLower).head? ≠ some '+' := by
    intro h
    rw [List.head?_map, Option.map_eq_some_iff] at h
    obtain ⟨c, hc, hlower⟩ := h
    obtain rfl | hrange := eq_of_toLower hlower
    · exact hplus hc
    · simp only [Char.reduceToNat] at hrange
      omega
  rw [Text.unsigned?, if_neg hplus', if_neg (by simpa using hcs)]
  rfl

theorem IsRow.unsigned?_eq {radix n : Nat} {cs : List Char} (h : IsRow radix cs n)
    (hradix : radix ≤ 16) :
    Text.unsigned? radix (cs.map Char.toLower) = if n < 2 ^ 64 then some n else none := by
  have hplus : cs.head? ≠ some '+' := by
    obtain ⟨-, ds, hds, -⟩ := h
    intro hhead
    cases hds with
    | nil => cases hhead
    | cons hd =>
      cases hhead
      have hnone : Text.digit? 16 '+' = none := rfl
      have hsome := (digit?_toLower_iff (Nat.le_refl 16)).mpr ⟨Nat.lt_of_lt_of_le hd.1 hradix, hd.2⟩
      exact absurd (hnone.symm.trans hsome) (by simp)
  rw [unsigned?_toLower radix hplus h.1, (digits?_eq_some_iff hradix h.1).mpr h]
  simp [Option.filter_some]

theorem isRow_of_unsigned? {radix n : Nat} {cs : List Char} (hradix : radix ≤ 16)
    (hplus : cs.head? ≠ some '+') (h : Text.unsigned? radix (cs.map Char.toLower) = some n) :
    IsRow radix cs n := by
  by_cases hcs : cs = []
  · rw [hcs] at h
    cases h
  · rw [unsigned?_toLower radix hplus hcs, Option.filter_eq_some_iff] at h
    exact (digits?_eq_some_iff hradix hcs).mp h.1

/-! ### Signs in numbers -/

def exponentMarks : List Char := ['e', 'E', 'p', 'P']

def SignsMarked (cs : List Char) : Prop :=
  ∀ u v, cs = u ++ '+' :: v → ∃ m ∈ u, m ∈ exponentMarks

theorem SignsMarked.of_not_mem {cs : List Char} (h : '+' ∉ cs) : SignsMarked cs := by
  intro u v heq
  exact absurd (heq ▸ List.mem_append_right u List.mem_cons_self) h

theorem SignsMarked.append {a b : List Char} (ha : SignsMarked a) (hb : SignsMarked b) :
    SignsMarked (a ++ b) := by
  intro u v heq
  obtain ⟨w, rfl, hw⟩ | ⟨w, rfl, hw⟩ := List.append_eq_append_iff.mp heq
  · obtain ⟨m, hm, hmark⟩ := hb w v hw
    exact ⟨m, List.mem_append_right a hm, hmark⟩
  · cases w with
    | nil =>
      obtain ⟨m, hm, -⟩ := hb [] v hw.symm
      cases hm
    | cons c w =>
      cases hw
      exact ha u w rfl

namespace Regex

variable {u : List Char}

theorem signsMarked_seqs {rs : List Regex} (hrs : ∀ r ∈ rs, ∀ u, r.Matches u → SignsMarked u)
    (h : (seqs rs).Matches u) : SignsMarked u := by
  induction rs generalizing u with
  | nil => exact matches_empty.mp h ▸ .of_not_mem (by simp)
  | cons r rs ih =>
    obtain ⟨v, w, rfl, hv, hw⟩ := matches_seq.mp h
    obtain ⟨hr, hrs⟩ := List.forall_mem_cons.mp hrs
    exact (hr v hv).append (ih hrs hw)

end Regex

namespace Rule

theorem signsMarked_exponent {low high : Char} (hlow : low ∈ exponentMarks)
    (hhigh : high ∈ exponentMarks)
    {u : List Char} (h : (Regex.opt (exponent low high)).Matches u) : SignsMarked u := by
  obtain h | h := Regex.matches_alt.mp h
  · exact Regex.matches_empty.mp h ▸ .of_not_mem (by simp)
  · obtain ⟨d, w, rfl, hd, -⟩ := Regex.matches_one_seq.mp h
    have hmark : d ∈ exponentMarks := by
      obtain hd | hd := Bool.or_eq_true_iff.mp hd
      · exact beq_iff_eq.mp hd ▸ hlow
      · exact beq_iff_eq.mp hd ▸ hhigh
    intro a b heq
    cases a with
    | nil =>
      cases heq
      simp [exponentMarks] at hmark
    | cons c a =>
      cases heq
      exact ⟨d, List.mem_cons_self, hmark⟩

theorem signsMarked_number {r : Regex} (hr : r ∈ numbers) {u : List Char} (h : r.Matches u) :
    SignsMarked u := by
  have hplain {s : Regex} (hs : s.avoids '+' = true) : ∀ u, s.Matches u → SignsMarked u :=
    fun u hu => .of_not_mem (Regex.not_mem_of_avoids hs hu)
  have hexponent {low high : Char} (hlow : low ∈ exponentMarks) (hhigh : high ∈ exponentMarks) :
      ∀ u, (Regex.opt (exponent low high)).Matches u → SignsMarked u :=
    fun u => signsMarked_exponent hlow hhigh
  simp only [numbers, List.mem_cons, List.not_mem_nil, or_false] at hr
  obtain rfl | rfl | rfl | rfl | rfl := hr
  · refine Regex.signsMarked_seqs ?_ h
    simp only [List.forall_mem_cons]
    exact ⟨hplain rfl, hplain rfl, hplain rfl, hexponent (by decide) (by decide), hplain rfl,
      by simp⟩
  · refine Regex.signsMarked_seqs ?_ h
    simp only [List.forall_mem_cons]
    exact ⟨hplain rfl, hplain rfl, hplain rfl, hexponent (by decide) (by decide), hplain rfl,
      by simp⟩
  · refine Regex.signsMarked_seqs ?_ h
    simp only [List.forall_mem_cons]
    exact ⟨hplain rfl, hplain rfl, hplain rfl, hplain rfl, hexponent (by decide) (by decide),
      hplain rfl, by simp⟩
  · exact hplain rfl u h
  · exact hplain rfl u h

end Rule

/-- What stands in a number behind characters that announce no exponent does not start with a
sign. -/
theorem IsNumber.head_ne_plus {text : String} (h : IsNumber text) (front : List Char)
    {cs : List Char}
    (htext : withoutUnderscores text = front ++ cs) (hfront : ∀ c ∈ front, c ∉ exponentMarks) :
    cs.head? ≠ some '+' := by
  intro hhead
  obtain ⟨cs, rfl⟩ : ∃ tail, cs = '+' :: tail := by
    cases cs with
    | nil => cases hhead
    | cons c tail =>
      cases hhead
      exact ⟨tail, rfl⟩
  obtain ⟨u, v, hsplit, hu, hv⟩ := List.filter_eq_append_iff.mp htext
  obtain ⟨w, rest, rfl, hw, -⟩ := List.filter_eq_cons_iff.mp hv
  obtain ⟨r, hr, hmatch⟩ := h
  obtain ⟨m, hm, hmark⟩ := Rule.signsMarked_number hr hmatch (u ++ w) rest (by simp [hsplit])
  -- The letter is no underscore, so it is among those in front.
  have hne : m ≠ '_' := by
    intro heq
    rw [heq] at hmark
    simp [exponentMarks] at hmark
  obtain hm | hm := List.mem_append.mp hm
  · exact hfront m (hu ▸ List.mem_filter.mpr ⟨hm, by simpa using hne⟩) hmark
  · exact hw m hm (by simpa using hne)

/-! ### Literals -/

theorem toLower_eq_zero {c : Char} (h : c.toLower = '0') : c = '0' := by
  obtain heq | hrange := eq_of_toLower h
  · exact heq
  · simp only [Char.reduceToNat] at hrange
    omega

theorem integer?_eq_of_spells {n : Nat} {text : String} (h : Spells n (withoutUnderscores text)) :
    integer? text = if n < 2 ^ 64 then some n else none := by
  rw [integer?, ← withoutUnderscores]
  generalize withoutUnderscores text = cs at h
  cases h with
  | decimal h hzero =>
    -- A zero in front stands alone.
    have hlone {y : Char} {ds : List Char} (heq : cs.map Char.toLower = '0' :: y :: ds) :
      False := by
      obtain ⟨a, as, rfl, ha, has⟩ := List.map_eq_cons_iff.mp heq
      rw [toLower_eq_zero ha] at hzero
      cases hzero rfl
      cases has
    rw [← h.unsigned?_eq (by decide)]
    split
    case h_5 => rfl
    all_goals
      rename_i heq
      exact (hlone heq).elim
  | @prefixed x radix cs hx h =>
    simp only [radixPrefixes, List.mem_cons, Prod.mk.injEq, List.not_mem_nil, or_false] at hx
    obtain ⟨rfl, rfl⟩ | ⟨rfl, rfl⟩ | ⟨rfl, rfl⟩ | ⟨rfl, rfl⟩ | ⟨rfl, rfl⟩ | ⟨rfl, rfl⟩ := hx
    all_goals exact h.unsigned?_eq (by decide)
  | @octal cs h =>
    rw [← h.unsigned?_eq (by decide)]
    obtain ⟨c, cs, rfl⟩ := List.exists_cons_of_ne_nil h.1
    -- No letter that announces a radix is a digit.
    have hdigit : Text.digit? 8 c.toLower ≠ none := by
      obtain ⟨-, ds, hds, -⟩ := h
      obtain ⟨d, -, hd, -⟩ := List.forall₂_cons_left_iff.mp hds
      simp [(digit?_toLower_iff (by decide)).mpr hd]
    simp only [List.map_cons]
    split
    case h_4 heq =>
      cases heq
      rfl
    case h_5 hother => exact (hother _ _ rfl).elim
    all_goals
      rename_i heq
      rw [(List.cons.inj (List.cons.inj heq).2).1] at hdigit
      exact absurd rfl hdigit

theorem mem_radixPrefixes {c x : Char} {radix : Nat} (X : Char) (hx : (x, radix) ∈ radixPrefixes)
    (hX : (X, radix) ∈ radixPrefixes) (hcase : X.toNat + 32 = x.toNat) (h : c.toLower = x) :
    (c, radix) ∈ radixPrefixes := by
  obtain rfl | hrange := eq_of_toLower h
  · exact hx
  · have heq : c = X := Char.toNat_inj.mp (by omega)
    exact heq ▸ hX

theorem spells_of_integer? {v : Nat} {text : String} (hnumber : IsNumber text)
    (h : integer? text = some v) :
    Spells v (withoutUnderscores text) := by
  have hmarks : ∀ p ∈ radixPrefixes, p.1 ∉ exponentMarks := by decide
  have hzero : '0' ∉ exponentMarks := by decide
  -- A letter that announces a radix, and the digits behind it.
  have hprefixed {x X : Char} {radix : Nat} {ds : List Char} (hx : (x, radix) ∈ radixPrefixes)
      (hX : (X, radix) ∈ radixPrefixes) (hcase : X.toNat + 32 = x.toNat) (hradix : radix ≤ 16)
      (heq : (withoutUnderscores text).map Char.toLower = '0' :: x :: ds)
      (h : Text.unsigned? radix ds = some v) : Spells v (withoutUnderscores text) := by
    obtain ⟨a, as, hcs, ha, has⟩ := List.map_eq_cons_iff.mp heq
    obtain ⟨b, bs, rfl, hb, rfl⟩ := List.map_eq_cons_iff.mp has
    obtain rfl := toLower_eq_zero ha
    have hb := mem_radixPrefixes X hx hX hcase hb
    have hplus := hnumber.head_ne_plus ['0', b] hcs (by simpa using ⟨hzero, hmarks _ hb⟩)
    exact hcs ▸ .prefixed hb (isRow_of_unsigned? hradix hplus h)
  rw [integer?, ← withoutUnderscores] at h
  split at h
  case h_1 heq => exact hprefixed (X := 'X') (by decide) (by decide) rfl (by decide) heq h
  case h_2 heq => exact hprefixed (X := 'O') (by decide) (by decide) rfl (by decide) heq h
  case h_3 heq => exact hprefixed (X := 'B') (by decide) (by decide) rfl (by decide) heq h
  case h_4 heq =>
    obtain ⟨a, as, hcs, ha, has⟩ := List.map_eq_cons_iff.mp heq
    obtain rfl := toLower_eq_zero ha
    have hplus := hnumber.head_ne_plus ['0'] hcs (by simpa using hzero)
    rw [← has] at h
    exact hcs ▸ .octal (isRow_of_unsigned? (by decide) hplus h)
  case h_5 hlone =>
    have hplus := hnumber.head_ne_plus [] (List.nil_append _).symm (by simp)
    refine .decimal (isRow_of_unsigned? (by decide) hplus h) fun hhead => ?_
    cases hcs : withoutUnderscores text with
    | nil => simp [hcs] at hhead
    | cons a as =>
      rw [hcs] at hhead hlone
      cases hhead
      cases as with
      | nil => rfl
      | cons b bs => exact (hlone b.toLower (bs.map Char.toLower) rfl).elim

theorem TokenStream.isNumber {source : List Char} {stream : TokenStream}
    (h : ofSource source = .ok stream)
    {text : String} {p : Position} (ht : ⟨.number text, p⟩ ∈ stream.tokens) : IsNumber text := by
  obtain ⟨ls, hls, hstream⟩ := bind_eq_ok.mp h
  cases hstream
  obtain heq | ⟨l, hl, -, htoken | ⟨-, -, hkind⟩⟩ := origin_of_mem_insertSemicolons ht
  · cases heq
  · have hmatch := (Lexeme.tiling_of_scan hls).isText hl
    obtain ⟨kind, u, q⟩ := l
    cases kind <;> cases htoken
    obtain ⟨r, hr, h⟩ := LexemeKind.number_of_matches hmatch
    exact ⟨r, hr, by simpa using h⟩
  · cases hkind

/-- Integer literals are read exactly. Every spelling of a number, with underscores anywhere in it,
has the number as its value if this fits in 64 bits, and no value if not. And where a number token
has a value, its text without underscores spells it. -/
theorem integer?_iff_spells :
    (∀ (n : Nat) (text : String), Spells n (withoutUnderscores text) →
      integer? text = if n < 2 ^ 64 then some n else none) ∧
    ∀ (source : List Char) (stream : TokenStream), TokenStream.ofSource source = .ok stream →
      ∀ (text : String) (p : Position), ⟨.number text, p⟩ ∈ stream.tokens →
        ∀ v, integer? text = some v → Spells v (withoutUnderscores text) := by
  refine ⟨fun n text => integer?_eq_of_spells, fun source stream h text p ht v hv => ?_⟩
  exact spells_of_integer? (TokenStream.isNumber h ht) hv

theorem integer?_iff_spells_of_bounds :
    (Spells (2 ^ 64) (withoutUnderscores "0o2_000000000000000000000") ∧
      integer? "0o2_000000000000000000000" = none) ∧
    (Spells (2 ^ 64 - 1) (withoutUnderscores "0X_ffff_FFFF_ffff_FFFF") ∧
      integer? "0X_ffff_FFFF_ffff_FFFF" = some (2 ^ 64 - 1)) ∧
    ∃ stream, TokenStream.ofSource "0_17".toList = .ok stream ∧
      ⟨.number "0_17", ⟨1, 1⟩⟩ ∈ stream.tokens ∧ integer? "0_17" = some 15 ∧
      Spells 15 (withoutUnderscores "0_17") := by
  have hrow (radix : Nat) {n : Nat} {cs : List Char} (hradix : radix ≤ 16) (hcs : cs ≠ [])
      (h : Text.digits? radix (cs.map Char.toLower) = some n) : IsRow radix cs n :=
    (digits?_eq_some_iff hradix hcs).mp h
  have hover : Spells (2 ^ 64) (withoutUnderscores "0o2_000000000000000000000") := by
    have htext : withoutUnderscores "0o2_000000000000000000000" =
      '0' :: 'o' :: '2' :: List.replicate 21 '0' := by decide
    rw [htext]
    exact .prefixed (by decide) (hrow 8 (by decide) (by simp) (by decide +kernel))
  have hlast : Spells (2 ^ 64 - 1) (withoutUnderscores "0X_ffff_FFFF_ffff_FFFF") := by
    have htext : withoutUnderscores "0X_ffff_FFFF_ffff_FFFF" =
      '0' :: 'X' :: ['f', 'f', 'f', 'f', 'F', 'F', 'F', 'F', 'f', 'f', 'f', 'f', 'F', 'F', 'F',
        'F'] := by
      decide
    rw [htext]
    exact .prefixed (by decide) (hrow 16 (by decide) (by simp) (by decide +kernel))
  have hstream : TokenStream.ofSource "0_17".toList =
    .ok ⟨[⟨.number "0_17", ⟨1, 1⟩⟩, ⟨.semicolon, ⟨1, 5⟩⟩], ⟨1, 5⟩⟩ := by decide +kernel
  obtain ⟨hvalue, hspells⟩ := integer?_iff_spells
  refine ⟨⟨hover, (hvalue _ _ hover).trans (if_neg (by decide))⟩,
    ⟨hlast, (hvalue _ _ hlast).trans (if_pos (by decide))⟩,
    _, hstream, List.mem_cons_self, by decide, ?_⟩
  exact hspells _ _ hstream _ _ List.mem_cons_self 15 (by decide)

end FieldOrder.Source
