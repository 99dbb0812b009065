import FieldOrder.Text.Quoted
import Mathlib.Data.List.Forall2

/-! What stands between the quotes. Each character is shown, named or numbered, and nothing else is
added, so that the quoted text determines the text. -/
namespace FieldOrder.Text

inductive Hexadecimal : Nat → List Char → Prop where
  | digit {n : Nat} : n < 16 → Hexadecimal n [n.digitChar]
  | more {n d : Nat} {ds : List Char} : Hexadecimal n ds → 0 < n → d < 16 →
      Hexadecimal (16 * n + d) (ds ++ [d.digitChar])

theorem hexadecimal_toDigits (n : Nat) : Hexadecimal n (Nat.toDigits 16 n) := by
  induction n using Nat.strongRecOn with
  | ind n ih =>
    obtain hlt | hle := Nat.lt_or_ge n 16
    · rw [Nat.toDigits_of_lt_base hlt]
      exact .digit hlt
    · have hpos : 0 < n / 16 := by omega
      have hdigit : n % 16 < 16 := Nat.mod_lt n (by decide)
      have hdigits := Nat.toDigits_append_toDigits (by decide) hpos hdigit
      rw [Nat.div_add_mod, Nat.toDigits_of_lt_base hdigit] at hdigits
      have hmore := (ih (n / 16) (by omega)).more hpos hdigit
      rwa [Nat.div_add_mod, hdigits] at hmore

theorem Hexadecimal.eq_toDigits {n : Nat} {ds : List Char} (h : Hexadecimal n ds) :
    ds = Nat.toDigits 16 n := by
  induction h with
  | digit hlt => rw [Nat.toDigits_of_lt_base hlt]
  | more _ hpos hd ih =>
    rw [ih, ← Nat.toDigits_of_lt_base hd, Nat.toDigits_append_toDigits (by decide) hpos hd]

theorem digitChar_inj {m n : Nat} (hm : m < 16) (hn : n < 16) (h : m.digitChar = n.digitChar) :
    m = n := by
  have hall : ∀ m < 16, ∀ n < 16, Nat.digitChar m = Nat.digitChar n → m = n := by decide
  exact hall m hm n hn h

namespace Hexadecimal

theorem ne_nil {n : Nat} {ds : List Char} (h : Hexadecimal n ds) : ds ≠ [] := by
  cases h <;> simp

theorem unique {m n : Nat} {ds : List Char} (h : Hexadecimal m ds) (h' : Hexadecimal n ds) :
    m = n := by
  induction h generalizing n with
  | @digit m hlt =>
    generalize hds : [m.digitChar] = ds at h'
    cases h' with
    | digit hlt' => exact digitChar_inj hlt hlt' (List.singleton_inj.mp hds)
    | more h' =>
      obtain ⟨hnil, -⟩ := List.append_inj' (List.nil_append _ |>.trans hds) rfl
      exact absurd hnil.symm h'.ne_nil
  | @more m d ds h _ hd ih =>
    generalize hds : ds ++ [d.digitChar] = es at h'
    cases h' with
    | digit =>
      obtain ⟨hnil, -⟩ := List.append_inj' (hds.trans (List.nil_append _).symm) rfl
      exact absurd hnil h.ne_nil
    | more h' _ hd' =>
      obtain ⟨rfl, hlast⟩ := List.append_inj' hds rfl
      rw [ih h', digitChar_inj hd hd' (List.singleton_inj.mp hlast)]

theorem brace_not_mem {n : Nat} {ds : List Char} (h : Hexadecimal n ds) : '\x7d' ∉ ds := by
  have hdigit : ∀ d < 16, '\x7d' ≠ Nat.digitChar d := by decide
  induction h with
  | digit hlt => exact fun hmem => hdigit _ hlt (List.mem_singleton.mp hmem)
  | more _ _ hd ih =>
    intro hmem
    obtain hmem | hmem := List.mem_append.mp hmem
    · exact ih hmem
    · exact hdigit _ hd (List.mem_singleton.mp hmem)

theorem takeWhile_append {n : Nat} {ds : List Char} (h : Hexadecimal n ds) (v : List Char) :
    (ds ++ '\x7d' :: v).takeWhile (· ≠ '\x7d') = ds := by
  rw [List.takeWhile_append_of_pos]
  · simp
  · intro d hd
    simpa using ne_of_mem_of_not_mem hd h.brace_not_mem

end Hexadecimal

/-- The characters that have an escape of their own, and the letter or mark of it. -/
def marks : List (Char × Char) :=
  [('\x00', '0'), ('\t', 't'), ('\n', 'n'), ('\r', 'r'), ('\x22', '\x22'), ('\x5c', '\x5c')]

inductive StandsFor : List Char → Char → Prop where
  | shown {c : Char} : c ∉ marks.map (·.1) → isShown c = true → StandsFor [c] c
  | named {c mark : Char} : (c, mark) ∈ marks → StandsFor ['\x5c', mark] c
  | numbered {c : Char} {ds : List Char} : c ∉ marks.map (·.1) → isShown c = false →
      Hexadecimal c.toNat ds → StandsFor (['\x5c', 'u', '\x7b'] ++ ds ++ ['\x7d']) c

/-- A text in double quotes: between them stands something for each character. -/
def Quotes (quoted : String) (text : List Char) : Prop :=
  ∃ parts, List.Forall₂ StandsFor parts text ∧
    quoted = String.ofList (['\x22'] ++ parts.flatten ++ ['\x22'])

theorem standsFor_iff {u : List Char} {c : Char} : StandsFor u c ↔ u = escape c := by
  have hnamed : ∀ e ∈ marks, escape e.1 = ['\x5c', e.2] := by decide
  have hothers : c ∉ marks.map (·.1) → escape c = if isShown c then [c] else codePoint c := by
    intro hc
    simp only [marks, List.map_cons, List.map_nil, List.mem_cons, List.not_mem_nil, or_false,
      not_or] at hc
    simp [escape, hc]
  constructor
  · intro h
    cases h with
    | shown hc hshown => rw [hothers hc, if_pos hshown]
    | named h => rw [hnamed _ h]
    | numbered hc hhidden hdigits =>
      rw [hothers hc, hhidden, hdigits.eq_toDigits]
      rfl
  · intro h
    subst h
    by_cases hc : c ∈ marks.map (·.1)
    · obtain ⟨⟨c, mark⟩, hmem, rfl⟩ := List.mem_map.mp hc
      rw [hnamed _ hmem]
      exact .named hmem
    · rw [hothers hc]
      split
      next hshown => exact .shown hc hshown
      next hhidden =>
        exact .numbered hc (Bool.not_eq_true _ ▸ hhidden) (hexadecimal_toDigits c.toNat)

theorem quotes_iff {s : String} {text : List Char} : Quotes s text ↔ s = quoted text := by
  have hparts {parts : List (List Char)} :
      List.Forall₂ StandsFor parts text ↔ parts = text.map escape := by
    rw [← List.forall₂_eq_eq_eq, List.forall₂_map_right_iff]
    exact ⟨fun h => h.imp fun _ _ => standsFor_iff.mp, fun h => h.imp fun _ _ => standsFor_iff.mpr⟩
  simp only [Quotes, hparts, exists_eq_left, quoted, List.flatMap_def]

/-- What stands for a character ends where it does, whatever comes behind it. -/
theorem StandsFor.append_inj {u u' v v' : List Char} {c c' : Char} (h : StandsFor u c)
    (h' : StandsFor u' c') (heq : u ++ v = u' ++ v') : c = c' ∧ v = v' := by
  have hmarks : ∀ e ∈ marks, e.2 ≠ 'u' ∧ ∀ e' ∈ marks, e.2 = e'.2 → e.1 = e'.1 := by decide
  have hbackslash : '\x5c' ∈ marks.map (·.1) := by decide
  cases h with
  | shown hc =>
    cases h' with
    | shown => simpa using heq
    | named | numbered =>
      obtain ⟨rfl, -⟩ := List.cons.inj heq
      exact absurd hbackslash hc
  | named hmem =>
    cases h' with
    | shown hc =>
      obtain ⟨rfl, -⟩ := List.cons.inj heq
      exact absurd hbackslash hc
    | named hmem' =>
      simp only [List.cons_append, List.nil_append, List.cons.injEq, true_and] at heq
      exact ⟨(hmarks _ hmem).2 _ hmem' heq.1, heq.2⟩
    | numbered =>
      simp only [List.cons_append, List.cons.injEq, true_and] at heq
      exact absurd heq.1 (hmarks _ hmem).1
  | @numbered _ ds _ _ hdigits =>
    cases h' with
    | shown hc =>
      obtain ⟨rfl, -⟩ := List.cons.inj heq
      exact absurd hbackslash hc
    | named hmem =>
      simp only [List.cons_append, List.cons.injEq, true_and] at heq
      exact absurd heq.1.symm (hmarks _ hmem).1
    | @numbered _ ds' _ _ hdigits' =>
      have heq : ds ++ '\x7d' :: v = ds' ++ '\x7d' :: v' := by simpa using heq
      -- The digits end at the first closing brace.
      have hdigits_eq : ds = ds' := by
        rw [← hdigits.takeWhile_append v, heq, hdigits'.takeWhile_append]
      subst hdigits_eq
      obtain ⟨-, hrest⟩ := List.cons.inj (List.append_cancel_left heq)
      exact ⟨Char.toNat_inj.mp (hdigits.unique hdigits'), hrest⟩

theorem StandsFor.ne_quote {u : List Char} {c : Char} (h : StandsFor u c) (v : List Char) :
    ['\x22'] ≠ u ++ v := by
  have hquote : '\x22' ∈ marks.map (·.1) := by decide
  intro heq
  cases h with
  | shown hc => exact hc ((List.cons.inj heq).1 ▸ hquote)
  | named => cases heq
  | numbered => cases heq

theorem Quotes.text_unique {s : String} {text text' : List Char} (h : Quotes s text)
    (h' : Quotes s text') : text = text' := by
  obtain ⟨parts, hparts, rfl⟩ := h
  obtain ⟨parts', hparts', heq⟩ := h'
  replace heq : parts.flatten ++ ['\x22'] = parts'.flatten ++ ['\x22'] := by
    simpa using String.ofList_injective heq
  induction hparts generalizing parts' text' with
  | nil =>
    cases hparts' with
    | nil => rfl
    | cons hu =>
      rw [List.flatten_cons, List.append_assoc] at heq
      exact absurd heq (hu.ne_quote _)
  | cons hu hparts ih =>
    rw [List.flatten_cons, List.append_assoc] at heq
    cases hparts' with
    | nil => exact absurd heq.symm (hu.ne_quote _)
    | cons hu' hparts' =>
      rw [List.flatten_cons, List.append_assoc] at heq
      obtain ⟨rfl, hrest⟩ := hu.append_inj hu' heq
      rw [ih _ hparts' hrest]

end FieldOrder.Text
