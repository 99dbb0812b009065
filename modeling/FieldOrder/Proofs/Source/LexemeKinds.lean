import FieldOrder.Proofs.Source.LongestMatch

/-! The kinds of lexemes, told apart by their texts. No text is matched by rules of two kinds:
mostly the first character decides, so that the order of the rules does not matter. -/
namespace FieldOrder.Source

namespace Regex

variable {r s : Regex} {u : List Char}

theorem matches_text {t : List Char} : (text t).Matches u ↔ u = t := by
  induction t generalizing u with
  | nil => exact matches_empty
  | cons c t ih =>
    simp only [text, matches_seq, matches_one, ih, beq_iff_eq]
    constructor
    · rintro ⟨_, _, rfl, ⟨d, rfl, rfl⟩, rfl⟩
      rfl
    · rintro rfl
      exact ⟨[c], t, rfl, ⟨c, rfl, rfl⟩, rfl⟩

theorem matches_one_seq {p : Char → Bool} :
    (Regex.seq (.one p) s).Matches u ↔ ∃ d v, u = d :: v ∧ p d = true ∧ s.Matches v := by
  simp only [matches_seq, matches_one]
  constructor
  · rintro ⟨_, v, rfl, ⟨d, hd, rfl⟩, hv⟩
    exact ⟨d, v, rfl, hd, hv⟩
  · rintro ⟨d, v, rfl, hd, hv⟩
    exact ⟨[d], v, rfl, ⟨d, hd, rfl⟩, hv⟩

theorem ne_nil_of_matches (h : r.Matches u) (hr : r.nullable = false) : u ≠ [] := by
  rintro rfl
  rw [nullable_iff.mpr h] at hr
  cases hr

end Regex

def LexemeKind.Matches (k : LexemeKind) (u : List Char) : Prop :=
  ∃ r ∈ Rule.all, r.kind = k ∧ r.regex.Matches u

/-- The kind of a lexeme, told from its text. The first character decides, except among comments, at
a lone backquote and among operators. -/
def LexemeKind.ofText (u : List Char) : LexemeKind :=
  if u.take 2 = ['/', '/'] then .lineComment
  else if u = ['/', '*'] then .openComment
  else if u.take 2 = ['/', '*'] then .blockComment
  else if u = ['\x60'] then .openRawString
  else match Operator.all.find? (·.text.toList == u), u with
    | some op, _ => .operator op
    | none, [] => .blank
    | none, c :: _ =>
      if Rule.isBlank c then .blank
      else if c = '\n' then .newline
      else if c = ';' then .semicolon
      else if c = '\x22' ∨ c = '\x27' ∨ c = '\x60' then .literal
      else if Rule.startsIdent c then .ident
      else .number

namespace LexemeKind

theorem ofText_operator : ∀ op ∈ Operator.all, ofText op.text.toList = .operator op := by decide

variable {c : Char} {u v : List Char}

theorem ne_of_class {p : Char → Bool} (h : p c = true) (d : Char) (hd : p d = false) : c ≠ d :=
  ne_of_beq_false (Rule.beq_of_class h d hd)

theorem operator_ne {p : Char → Bool} (i : Nat) (hi : u[i]? = some c) (hc : p c = true)
    (hp : (Operator.all.any fun op => op.text.toList[i]?.any p) = false) :
    ∀ op ∈ Operator.all, op.text.toList ≠ u := by
  rintro op hop rfl
  refine List.any_eq_false.mp hp op hop ?_
  rw [hi]
  exact hc

theorem ofText_cons (hop : ∀ op ∈ Operator.all, op.text.toList ≠ c :: v) (hslash : c ≠ '/')
    (hraw : c = '\x60' → v ≠ []) : ofText (c :: v) =
      if Rule.isBlank c then .blank
      else if c = '\n' then .newline
      else if c = ';' then .semicolon
      else if c = '\x22' ∨ c = '\x27' ∨ c = '\x60' then .literal
      else if Rule.startsIdent c then .ident
      else .number := by
  have hfind : Operator.all.find? (·.text.toList == c :: v) = none := by simpa using hop
  have hquote : c :: v ≠ ['\x60'] := by
    intro heq
    cases heq
    exact hraw rfl rfl
  unfold ofText
  rw [if_neg (by simp [hslash]), if_neg (by simp [hslash]), if_neg (by simp [hslash]),
    if_neg hquote, hfind]

theorem ofText_blank (h : Rule.isBlank c = true) (v : List Char) : ofText (c :: v) = .blank := by
  have hne := ne_of_class h
  rw [ofText_cons (operator_ne 0 rfl h (by decide)) (hne _ rfl) fun hc => absurd hc (hne _ rfl),
    if_pos h]

theorem ofText_ident (h : Rule.startsIdent c = true) (v : List Char) :
    ofText (c :: v) = .ident := by
  have hne := ne_of_class h
  rw [ofText_cons (operator_ne 0 rfl h (by decide)) (hne _ rfl) fun hc => absurd hc (hne _ rfl)]
  simp (disch := decide) [Rule.isBlank_of_startsIdent h, h, hne]

theorem ofText_literal (h : c = '\x22' ∨ c = '\x27' ∨ c = '\x60') (hv : v ≠ []) :
    ofText (c :: v) = .literal := by
  have hop : ∀ op ∈ Operator.all, op.text.toList ≠ c :: v :=
    operator_ne (p := fun c => c == '\x22' || c == '\x27' || c == '\x60') 0 rfl
      (by simpa [or_assoc] using h) (by decide)
  obtain rfl | rfl | rfl := h
  all_goals
    rw [ofText_cons hop (by decide) fun _ => hv]
    decide

theorem exists_digit_of_number {r : Regex} (hr : r ∈ Rule.numbers) (h : r.Matches u) :
    (∃ c v, u = c :: v ∧ c.isDigit = true) ∨ ∃ c v, u = '.' :: c :: v ∧ c.isDigit = true := by
  simp only [Rule.numbers, List.mem_cons, List.not_mem_nil, or_false] at hr
  obtain rfl | rfl | rfl | rfl | rfl := hr
  · obtain ⟨c, v, rfl, hc, -⟩ := Regex.matches_one_seq.mp h
    exact .inl ⟨c, v, rfl, hc⟩
  · obtain ⟨d, _, rfl, hd, h⟩ := Regex.matches_one_seq.mp h
    obtain ⟨c, v, rfl, hc, -⟩ := Regex.matches_one_seq.mp h
    obtain rfl := beq_iff_eq.mp hd
    exact .inr ⟨c, v, rfl, hc⟩
  all_goals
    obtain ⟨c, v, rfl, hc, -⟩ := Regex.matches_one_seq.mp h
    obtain rfl := beq_iff_eq.mp hc
    exact .inl ⟨_, v, rfl, rfl⟩

theorem ofText_number {r : Regex} (hr : r ∈ Rule.numbers) (h : r.Matches u) :
    ofText u = .number := by
  obtain ⟨c, v, rfl, hc⟩ | ⟨c, v, rfl, hc⟩ := exists_digit_of_number hr h
  · have hne := ne_of_class hc
    have hident : Rule.startsIdent c = false := by
      cases hs : Rule.startsIdent c with
      | false => rfl
      | true => simp [Rule.isDigit_of_startsIdent hs] at hc
    rw [ofText_cons (operator_ne 0 rfl hc (by decide)) (hne _ rfl) fun hc => absurd hc (hne _ rfl)]
    simp (disch := decide) [Rule.isBlank_of_isDigit hc, hident, hne]
  · rw [ofText_cons (operator_ne 1 rfl hc (by decide)) (by decide) (by simp)]
    decide

theorem ofText_quotedBy {q : Char} (hq : q = '\x22' ∨ q = '\x27')
    (h : (Rule.quotedBy q).Matches u) :
    ofText u = .literal := by
  obtain ⟨c, v, rfl, hc, hv⟩ := Regex.matches_one_seq.mp h
  obtain rfl := beq_iff_eq.mp hc
  exact ofText_literal (hq.imp_right .inl) (Regex.ne_nil_of_matches hv rfl)

theorem ofText_rawString (h : Rule.rawString.Matches u) : ofText u = .literal := by
  obtain ⟨c, v, rfl, hc, hv⟩ := Regex.matches_one_seq.mp h
  obtain rfl := beq_iff_eq.mp hc
  exact ofText_literal (.inr (.inr rfl)) (Regex.ne_nil_of_matches hv rfl)

theorem ofText_lineComment (h : Rule.lineComment.Matches u) : ofText u = .lineComment := by
  obtain ⟨_, v, rfl, hstart, -⟩ := Regex.matches_seq.mp h
  rw [Regex.matches_text.mp hstart]
  simp [ofText]

theorem ofText_blockComment (h : Rule.blockComment.Matches u) : ofText u = .blockComment := by
  obtain ⟨_, v, rfl, hstart, hv⟩ := Regex.matches_seq.mp h
  have hne : v ≠ [] := Regex.ne_nil_of_matches hv rfl
  rw [Regex.matches_text.mp hstart]
  simp [ofText, hne]

theorem ofText_of_matches {k : LexemeKind} (h : k.Matches u) : ofText u = k := by
  obtain ⟨r, hr, rfl, h⟩ := h
  have htail : Rule.all.drop 14 = ⟨.ident, Rule.identifier⟩ :: ⟨.semicolon, .text [';']⟩ ::
      Operator.all.map fun op => ⟨.operator op, .text op.text.toList⟩ := rfl
  -- The rules in front of the numbers, those for numbers, and those behind them.
  rw [Rule.all_eq_append, List.mem_append, List.mem_append, List.mem_map, htail] at hr
  obtain hr | ⟨r, hr, rfl⟩ | hr := hr
  · simp only [Rule.all, List.take_succ_cons, List.cons_append, List.take_zero, List.mem_cons,
      List.not_mem_nil, or_false] at hr
    obtain rfl | rfl | rfl | rfl | rfl | rfl | rfl | rfl | rfl := hr
    · obtain ⟨c, v, rfl, hc, -⟩ := Regex.matches_one_seq.mp h
      exact ofText_blank hc v
    · rw [Regex.matches_text.mp h]
      decide
    · exact ofText_lineComment h
    · exact ofText_blockComment h
    · rw [Regex.matches_text.mp h]
      decide
    · exact ofText_quotedBy (.inl rfl) h
    · exact ofText_quotedBy (.inr rfl) h
    · exact ofText_rawString h
    · rw [Regex.matches_text.mp h]
      decide
  · exact ofText_number hr h
  · rw [List.mem_cons, List.mem_cons, List.mem_map] at hr
    obtain rfl | rfl | ⟨op, hop, rfl⟩ := hr
    · obtain ⟨c, v, rfl, hc, -⟩ := Regex.matches_one_seq.mp h
      exact ofText_ident hc v
    · rw [Regex.matches_text.mp h]
      decide
    · rw [Regex.matches_text.mp h]
      exact ofText_operator op hop

variable {k k' : LexemeKind}

theorem eq_of_matches (h : k.Matches u) (h' : k'.Matches u) : k = k' :=
  (ofText_of_matches h).symm.trans (ofText_of_matches h')

theorem ne_nil_of_matches (h : k.Matches u) : u ≠ [] := by
  have hnull : ∀ r ∈ Rule.all, r.regex.nullable = false := by decide
  obtain ⟨r, hr, -, h⟩ := h
  exact Regex.ne_nil_of_matches h (hnull r hr)

/-- A text of a kind is matched by one of the rules that are left when rules of other kinds are
dropped. -/
theorem exists_rule (before own after : List Rule) (hall : Rule.all = before ++ (own ++ after))
    (hothers : ∀ r ∈ before ++ after, r.kind ≠ k) (h : k.Matches u) :
    ∃ r ∈ own, r.regex.Matches u := by
  obtain ⟨r, hr, hkind, h⟩ := h
  rw [hall, List.mem_append, List.mem_append] at hr
  obtain hr | hr | hr := hr
  · exact absurd hkind (hothers r (List.mem_append_left _ hr))
  · exact ⟨r, hr, h⟩
  · exact absurd hkind (hothers r (List.mem_append_right _ hr))

theorem isBlank_of_matches (h : LexemeKind.blank.Matches (c :: v)) : Rule.isBlank c = true := by
  obtain ⟨r, hr, h⟩ :=
    exists_rule [] [⟨.blank, .plus (.one Rule.isBlank)⟩] (Rule.all.drop 1) rfl (by decide) h
  obtain rfl := List.mem_singleton.mp hr
  obtain ⟨d, v, heq, hd, -⟩ := Regex.matches_one_seq.mp h
  cases heq
  exact hd

theorem identifier_of_matches (h : LexemeKind.ident.Matches u) : Rule.identifier.Matches u := by
  obtain ⟨r, hr, h⟩ :=
    exists_rule (Rule.all.take 14) [⟨.ident, Rule.identifier⟩] (Rule.all.drop 15) rfl (by decide) h
  obtain rfl := List.mem_singleton.mp hr
  exact h

theorem number_of_matches (h : LexemeKind.number.Matches u) : ∃ r ∈ Rule.numbers, r.Matches u := by
  obtain ⟨r, hr, h⟩ := exists_rule _ _ _ Rule.all_eq_append (by decide) h
  obtain ⟨s, hs, rfl⟩ := List.mem_map.mp hr
  exact ⟨s, hs, h⟩

theorem complete?_after_iff : complete? (Rule.after u Rule.all) = some k ↔ k.Matches u := by
  have hsound {k : LexemeKind} (h : complete? (Rule.after u Rule.all) = some k) : k.Matches u := by
    rw [Rule.complete?_after, Option.map_eq_some_iff] at h
    obtain ⟨r, hr, rfl⟩ := h
    have hnull := List.find?_some hr
    exact ⟨r, List.mem_of_find?_eq_some hr, rfl, Regex.matches_iff_derivatives.mpr hnull⟩
  refine ⟨hsound, fun h => ?_⟩
  cases hcomplete : complete? (Rule.after u Rule.all) with
  | some k' => rw [eq_of_matches h (hsound hcomplete)]
  | none =>
    obtain ⟨r, hr, -, hmatch⟩ := h
    rw [Rule.complete?_after, Option.map_eq_none_iff, List.find?_eq_none] at hcomplete
    exact absurd (Regex.matches_iff_derivatives.mp hmatch) (hcomplete r hr)

theorem complete?_after_eq_none_iff :
    complete? (Rule.after u Rule.all) = none ↔ ∀ k : LexemeKind, ¬ k.Matches u := by
  simp only [← complete?_after_iff, Option.eq_none_iff_forall_ne_some, ne_eq]

end LexemeKind

end FieldOrder.Source
