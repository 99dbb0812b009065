import FieldOrder.Proofs.Source.Scanning

/-! The longest match by derivatives. The derivative of an expression matches what is left of its
texts. So the rules that are left behind a text tell which rules match it, and it is the longest
match where no rule can go on. It follows that every number is scanned as a number. -/
namespace FieldOrder.Source

namespace Regex

variable {r s : Regex} {c : Char} {u : List Char}

theorem not_matches_never : ¬ Matches .never u := nofun

theorem matches_empty : Matches .empty u ↔ u = [] := by
  constructor
  · rintro ⟨⟩
    rfl
  · rintro rfl
    exact .empty

theorem matches_one {p : Char → Bool} : Matches (.one p) u ↔ ∃ d, p d = true ∧ u = [d] := by
  constructor
  · rintro ⟨⟩
    exact ⟨_, ‹_›, rfl⟩
  · rintro ⟨d, hd, rfl⟩
    exact .one hd

theorem matches_seq : Matches (.seq r s) u ↔ ∃ v w, u = v ++ w ∧ r.Matches v ∧ s.Matches w := by
  constructor
  · rintro ⟨⟩
    exact ⟨_, _, rfl, ‹_›, ‹_›⟩
  · rintro ⟨v, w, rfl, hv, hw⟩
    exact .seq hv hw

theorem matches_alt : Matches (.alt r s) u ↔ r.Matches u ∨ s.Matches u := by
  constructor
  · rintro ⟨⟩
    · exact .inl ‹_›
    · exact .inr ‹_›
  · rintro (h | h)
    · exact .left h
    · exact .right h

theorem matches_seq_cons : Matches (.seq r s) (c :: u) ↔ (r.Matches [] ∧ s.Matches (c :: u)) ∨
    ∃ v w, u = v ++ w ∧ r.Matches (c :: v) ∧ s.Matches w := by
  rw [matches_seq]
  constructor
  · rintro ⟨_ | ⟨d, v⟩, w, heq, hv, hw⟩
    · cases heq
      exact .inl ⟨hv, hw⟩
    · cases heq
      exact .inr ⟨v, w, rfl, hv, hw⟩
  · rintro (⟨hr, hs⟩ | ⟨v, w, rfl, hv, hw⟩)
    · exact ⟨[], c :: u, rfl, hr, hs⟩
    · exact ⟨c :: v, w, rfl, hv, hw⟩

/-- The first repetition that takes a character takes the first one. -/
theorem matches_star_cons :
    Matches (.star r) (c :: u) ↔ ∃ v w, u = v ++ w ∧ r.Matches (c :: v) ∧
      (Regex.star r).Matches w := by
  constructor
  · intro h
    generalize hr : Regex.star r = t, hcs : c :: u = cs at h
    induction h with
    | stop => cases hcs
    | @more _ v w hv hw _ ih =>
      cases hr
      cases v with
      | nil => exact ih rfl hcs
      | cons d v =>
        cases hcs
        exact ⟨v, w, rfl, hv, hw⟩
    | _ => cases hr
  · rintro ⟨v, w, rfl, hv, hw⟩
    exact .more hv hw

theorem nullable_iff : r.nullable = true ↔ r.Matches [] := by
  induction r with
  | never => simp [nullable, not_matches_never]
  | empty => simp [nullable, matches_empty]
  | one p => simp [nullable, matches_one]
  | seq r s ihr ihs => simp [nullable, matches_seq, ihr, ihs]
  | alt r s ihr ihs => simp [nullable, matches_alt, ihr, ihs]
  | star r => simpa [nullable] using Matches.stop

theorem matches_andThen : (r.andThen s).Matches u ↔ Matches (.seq r s) u := by
  unfold andThen
  split
  · simp [matches_seq, not_matches_never]
  · simp [matches_seq, not_matches_never]
  · simp [matches_seq, matches_empty]
  · rfl

theorem matches_orElse : (r.orElse s).Matches u ↔ r.Matches u ∨ s.Matches u := by
  unfold orElse
  split
  · simp [not_matches_never]
  · simp [not_matches_never]
  · exact matches_alt

theorem matches_derivative : (r.derivative c).Matches u ↔ r.Matches (c :: u) := by
  induction r generalizing u with
  | never => simp [derivative, not_matches_never]
  | empty => simp [derivative, not_matches_never, matches_empty]
  | one p =>
    by_cases hp : p c = true
    · simp [derivative, hp, matches_empty, matches_one]
    · simp [derivative, hp, not_matches_never, matches_one]
  | seq r s ihr ihs =>
    have hfirst : ((r.derivative c).andThen s).Matches u ↔
        ∃ v w, u = v ++ w ∧ r.Matches (c :: v) ∧ s.Matches w := by
      simp [matches_andThen, matches_seq, ihr]
    rw [matches_seq_cons, ← nullable_iff, ← hfirst, ← ihs]
    by_cases hn : r.nullable = true
    · simp [derivative, hn, matches_orElse, or_comm]
    · simp [derivative, hn]
  | alt r s ihr ihs => simp [derivative, matches_orElse, matches_alt, ihr, ihs]
  | star r ih => simp [derivative, matches_andThen, matches_seq, matches_star_cons, ih]

theorem startsWith_of_matches (h : r.Matches (c :: u)) : r.startsWith c = true := by
  cases hs : r.startsWith c with
  | true => rfl
  | false =>
    rw [← matches_derivative, derivative_eq_never hs] at h
    exact absurd h not_matches_never

def derivatives (u : List Char) (r : Regex) : Regex := u.foldl (fun r c => r.derivative c) r

@[simp] theorem derivatives_never (u : List Char) : derivatives u .never = .never := by
  induction u with
  | nil => rfl
  | cons c u ih => exact ih

theorem matches_iff_derivatives : r.Matches u ↔ (r.derivatives u).nullable = true := by
  induction u generalizing r with
  | nil => exact nullable_iff.symm
  | cons c u ih => rw [← matches_derivative, ih]; rfl

instance (r : Regex) : DecidablePred r.Matches := fun _ =>
  decidable_of_iff _ matches_iff_derivatives.symm

def avoids (c : Char) : Regex → Bool
  | never | empty => true
  | one p => !p c
  | seq r s | alt r s => r.avoids c && s.avoids c
  | star r => r.avoids c

theorem avoids_andThen (hr : r.avoids c = true) (hs : s.avoids c = true) :
    (r.andThen s).avoids c = true := by
  unfold andThen
  split
  · rfl
  · rfl
  · exact hs
  · simp [avoids, hr, hs]

theorem avoids_orElse (hr : r.avoids c = true) (hs : s.avoids c = true) :
    (r.orElse s).avoids c = true := by
  unfold orElse
  split
  · exact hs
  · exact hr
  · simp [avoids, hr, hs]

theorem avoids_derivative (h : r.avoids c = true) (d : Char) :
    (r.derivative d).avoids c = true := by
  induction r with
  | never | empty => rfl
  | one p => by_cases hd : p d = true <;> simp [derivative, hd, avoids]
  | seq r s ihr ihs =>
    simp only [avoids, Bool.and_eq_true] at h
    have hfirst := avoids_andThen (ihr h.1) h.2
    by_cases hn : r.nullable = true
    · simpa [derivative, hn] using avoids_orElse hfirst (ihs h.2)
    · simpa [derivative, hn] using hfirst
  | alt r s ihr ihs =>
    simp only [avoids, Bool.and_eq_true] at h
    exact avoids_orElse (ihr h.1) (ihs h.2)
  | star r ih => exact avoids_andThen (ih h) h

theorem startsWith_of_avoids (h : r.avoids c = true) : r.startsWith c = false := by
  induction r with
  | never | empty => rfl
  | one p => simpa [avoids, startsWith] using h
  | seq r s ihr ihs | alt r s ihr ihs =>
    simp only [avoids, Bool.and_eq_true] at h
    simp [startsWith, ihr h.1, ihs h.2]
  | star r ih => exact ih h

theorem derivatives_of_avoids (h : r.avoids c = true) (u : List Char) :
    derivatives (u ++ [c]) r = .never := by
  induction u generalizing r with
  | nil => exact derivative_eq_never (startsWith_of_avoids h)
  | cons d u ih => exact ih (avoids_derivative h d)

end Regex

namespace Rule

def after : List Char → List Rule → List Rule
  | [], rules => rules
  | c :: u, rules => after u (rules.filterMap (advance? c))

theorem after_append (u v : List Char) (rules : List Rule) :
    after (u ++ v) rules = after v (after u rules) := by
  induction u generalizing rules with
  | nil => rfl
  | cons c u ih => exact ih _

theorem after_nil (u : List Char) : after u [] = [] := by
  induction u with
  | nil => rfl
  | cons c u ih => exact ih

theorem advance?_of_never {c : Char} {r : Rule} (h : r.regex.derivative c = .never) :
    r.advance? c = none := by
  simp [advance?, h, Regex.isNever]

theorem advance?_of_ne {c : Char} {r : Rule} (h : r.regex.derivative c ≠ .never) :
    r.advance? c = some ⟨r.kind, r.regex.derivative c⟩ := by
  unfold advance?
  cases hr : r.regex.derivative c with
  | never => exact absurd hr h
  | _ => rfl

theorem complete?_after (u : List Char) (rules : List Rule) :
    complete? (after u rules) =
      (rules.find? fun r => (r.regex.derivatives u).nullable).map (·.kind) := by
  induction u generalizing rules with
  | nil => rfl
  | cons c u ih =>
    rw [after, ih]
    induction rules with
    | nil => rfl
    | cons r rules ihr =>
      by_cases hr : r.regex.derivative c = .never
      · have hnull : ((r.regex.derivatives (c :: u)).nullable) = false := by
          rw [Regex.derivatives, List.foldl_cons, hr]
          exact congrArg Regex.nullable (Regex.derivatives_never u)
        rw [List.filterMap_cons_none (advance?_of_never hr), ihr, List.find?_cons, hnull]
      · have hstep : ((r.regex.derivative c).derivatives u).nullable =
            (r.regex.derivatives (c :: u)).nullable := rfl
        rw [List.filterMap_cons_some (advance?_of_ne hr), List.find?_cons, List.find?_cons, hstep]
        cases (r.regex.derivatives (c :: u)).nullable with
        | true => rfl
        | false => exact ihr

theorem mem_after {u : List Char} {rules : List Rule} {r : Rule} (h : r ∈ after u rules) :
    ∃ r₀ ∈ rules, r = ⟨r₀.kind, r₀.regex.derivatives u⟩ := by
  induction u generalizing rules with
  | nil => exact ⟨r, h, rfl⟩
  | cons c u ih =>
    obtain ⟨r₁, hr₁, rfl⟩ := ih h
    obtain ⟨r₀, hr₀, hadvance⟩ := List.mem_filterMap.mp hr₁
    by_cases hnever : r₀.regex.derivative c = .never
    · rw [advance?_of_never hnever] at hadvance
      cases hadvance
    · rw [advance?_of_ne hnever] at hadvance
      cases hadvance
      exact ⟨r₀, hr₀, rfl⟩

theorem after_eq_nil {u : List Char} {c : Char} {rules : List Rule}
    (h : ∀ r ∈ rules, r.regex.derivatives (u ++ [c]) = .never) : after (u ++ [c]) rules = [] := by
  rw [after_append]
  refine List.filterMap_eq_nil_iff.mpr fun r hr => ?_
  obtain ⟨r₀, hr₀, rfl⟩ := mem_after hr
  have hnever := h r₀ hr₀
  rw [Regex.derivatives, List.foldl_append] at hnever
  exact advance?_of_never hnever

end Rule

/-- A text that a rule matches, where no rule can go on with the next character, is the longest
match. -/
theorem longestMatch_append {rules : List Rule} {u : List Char} {k : LexemeKind} {c : Char}
    (hk : complete? (Rule.after u rules) = some k) (hc : Rule.after (u ++ [c]) rules = [])
    (v : List Char) : longestMatch rules (u ++ c :: v) = some (k, u.length) := by
  induction u generalizing rules with
  | nil =>
    have hrest : rules.filterMap (Rule.advance? c) = [] := hc
    have hnow : complete? rules = some k := hk
    simp [longestMatch, hrest, hnow]
  | cons d u ih =>
    have hsome : rules.filterMap (Rule.advance? d) ≠ [] := by
      intro hnil
      rw [Rule.after, hnil, Rule.after_nil] at hk
      cases hk
    have ih := ih hk hc
    simp [longestMatch, hsome, ih]

namespace Rule

def numbers : List Regex := [decimal, fraction, hexadecimal, octal, binary]

theorem all_eq_append : all = all.take 9 ++ (numbers.map (⟨.number, ·⟩) ++ all.drop 14) := rfl

theorem start_of_number {r : Regex} (hr : r ∈ numbers) {c : Char} {u : List Char}
    (h : r.Matches (c :: u)) : c.isDigit = true ∨ c = '.' := by
  have hstart := Regex.startsWith_of_matches h
  simp only [numbers, List.mem_cons, List.not_mem_nil, or_false] at hr
  obtain rfl | rfl | rfl | rfl | rfl := hr
  · exact .inl (by simpa [decimal, Regex.seqs, Regex.startsWith, Regex.nullable] using hstart)
  · exact .inr (by simpa [fraction, Regex.seqs, Regex.startsWith, Regex.nullable] using hstart)
  all_goals
    left
    have hc : c = '0' := by
      simpa [hexadecimal, octal, binary, Regex.seqs, Regex.startsWith, Regex.nullable] using hstart
    rw [hc]
    rfl

theorem startsWith_eq_false {c : Char} (hc : c.isDigit = true ∨ c = '.') :
    ∀ r ∈ all.take 9, r.regex.startsWith c = false := by
  obtain hc | rfl := hc
  · have hne := beq_of_class hc
    have hblank := isBlank_of_isDigit hc
    simp (disch := decide)
      [all, Regex.startsWith, Regex.nullable, Regex.plus, Regex.text, Regex.seqs,
      quotedBy, rawString, lineComment, blockComment, hne, hblank]
  · decide

theorem derivatives_number_blank {c : Char} (hc : c.isDigit = true ∨ c = '.') (u : List Char) :
    ∀ r ∈ all, r.regex.derivatives (c :: u ++ [' ']) = .never := by
  have havoids : ∀ r ∈ all.drop 9, r.regex.avoids ' ' = true := by decide
  intro r hr
  rw [← List.take_append_drop 9 all] at hr
  obtain hr | hr := List.mem_append.mp hr
  · have hnever := Regex.derivative_eq_never (startsWith_eq_false hc r hr)
    rw [List.cons_append, Regex.derivatives, List.foldl_cons, hnever]
    exact Regex.derivatives_never _
  · exact Regex.derivatives_of_avoids (havoids r hr) _

theorem complete?_number {r : Regex} (hr : r ∈ numbers) {c : Char} {u : List Char}
    (h : r.Matches (c :: u)) : complete? (after (c :: u) all) = some .number := by
  have hothers : (all.take 9).find? (fun r => (r.regex.derivatives (c :: u)).nullable) = none := by
    rw [List.find?_eq_none]
    intro s hs hnull
    have hstart := Regex.startsWith_of_matches (Regex.matches_iff_derivatives.mpr hnull)
    rw [startsWith_eq_false (start_of_number hr h) s hs] at hstart
    cases hstart
  obtain ⟨s, hs⟩ : ∃ s, (numbers.map (Rule.mk .number)).find?
      (fun r => (r.regex.derivatives (c :: u)).nullable) = some s := by
    rw [← Option.isSome_iff_exists, List.find?_isSome]
    exact ⟨⟨.number, r⟩, List.mem_map_of_mem hr, Regex.matches_iff_derivatives.mp h⟩
  obtain ⟨t, -, rfl⟩ := List.mem_map.mp (List.mem_of_find?_eq_some hs)
  rw [complete?_after, all_eq_append, List.find?_append, hothers, List.find?_append, hs]
  rfl

end Rule

def IsNumber (text : String) : Prop := ∃ r ∈ Rule.numbers, r.Matches text.toList

instance : DecidablePred IsNumber := fun text =>
  inferInstanceAs (Decidable (∃ r ∈ Rule.numbers, r.Matches text.toList))

namespace IsNumber

variable {text : String}

theorem exists_cons (h : IsNumber text) :
    ∃ r ∈ Rule.numbers, ∃ c u, text.toList = c :: u ∧ r.Matches (c :: u) := by
  obtain ⟨r, hr, hmatch⟩ := h
  cases htext : text.toList with
  | nil =>
    have hnull : ∀ r ∈ Rule.numbers, r.nullable = false := by decide
    rw [htext, ← Regex.nullable_iff, hnull r hr] at hmatch
    cases hmatch
  | cons c u =>
    rw [htext] at hmatch
    exact ⟨r, hr, c, u, rfl, hmatch⟩

theorem taken (h : IsNumber text) (v : List Char) :
    Piece.Taken ⟨.number, text.toList⟩ (' ' :: v) := by
  obtain ⟨r, hr, c, u, htext, hmatch⟩ := h.exists_cons
  have hnil := Rule.after_eq_nil (Rule.derivatives_number_blank (Rule.start_of_number hr hmatch) u)
  rw [htext]
  exact ⟨by simp, by simp, longestMatch_append (Rule.complete?_number hr hmatch) hnil v⟩

theorem head_not_blank (h : IsNumber text) (v : List Char) :
    ∀ c ∈ (text.toList ++ v).head?, Rule.isBlank c = false := by
  obtain ⟨r, hr, c, u, htext, hmatch⟩ := h.exists_cons
  rw [htext]
  intro d hd
  cases hd
  obtain hdigit | rfl := Rule.start_of_number hr hmatch
  · exact Rule.isBlank_of_isDigit hdigit
  · rfl

end IsNumber

end FieldOrder.Source
