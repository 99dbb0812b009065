import FieldOrder.Proofs.Source.LexemeKinds
import FieldOrder.Proofs.Text.Quoted
import Mathlib.Data.List.TakeWhile

/-! The scanner as a relation. At each place it takes the longest text that one of the rules
matches, whatever stands behind it. Where there is none, it shows the longest text that could have
become one. -/
namespace FieldOrder.Source

/-! ### The longest text -/

structure LongestStart (source : List Char) (k : LexemeKind) (u : List Char) : Prop where
  isPrefix : u <+: source
  isText : k.Matches u
  longest {k' : LexemeKind} {v : List Char} (hv : v <+: source) (h : k'.Matches v) :
    v.length ≤ u.length

theorem LongestStart.unique {source u u' : List Char} {k k' : LexemeKind}
    (h : LongestStart source k u) (h' : LongestStart source k' u') : u = u' ∧ k = k' := by
  have hlength := Nat.le_antisymm (h'.longest h.isPrefix h.isText) (h.longest h'.isPrefix h'.isText)
  have hprefix := List.prefix_of_prefix_length_le h.isPrefix h'.isPrefix (Nat.le_of_eq hlength)
  obtain rfl := hprefix.eq_of_length hlength
  exact ⟨rfl, LexemeKind.eq_of_matches h.isText h'.isText⟩

theorem longestMatch_nil_rules (source : List Char) : longestMatch [] source = none := by
  cases source <;> rfl

theorem longestMatch_cons_eq (rules : List Rule) (c : Char) (source : List Char) :
    longestMatch rules (c :: source) =
      match longestMatch (rules.filterMap (Rule.advance? c)) source with
      | some (k, n) => some (k, n + 1)
      | none => (complete? rules).map (·, 0) := by
  cases hrest : rules.filterMap (Rule.advance? c) with
  | nil => simp [longestMatch, hrest, longestMatch_nil_rules]
  | cons r rest =>
    rw [longestMatch, hrest]
    rfl

theorem longestMatch_cases (rules : List Rule) (source : List Char) :
    match longestMatch rules source with
    | some (k, n) => n ≤ source.length ∧ complete? (Rule.after (source.take n) rules) = some k ∧
      ∀ v, v <+: source → n < v.length → complete? (Rule.after v rules) = none
    | none => ∀ v, v <+: source → complete? (Rule.after v rules) = none := by
  induction source generalizing rules with
  | nil =>
    cases hnow : complete? rules <;> simp [longestMatch, hnow, Rule.after]
  | cons c source ih =>
    -- What is found behind the first character is found among the rules that are left after it.
    have ih := ih (rules.filterMap (Rule.advance? c))
    rw [longestMatch_cons_eq]
    cases hrest : longestMatch (rules.filterMap (Rule.advance? c)) source with
    | some kn =>
      obtain ⟨k, n⟩ := kn
      rw [hrest] at ih
      obtain ⟨hn, hk, hlater⟩ := ih
      refine ⟨Nat.succ_le_succ hn, hk, ?_⟩
      intro v hv hlength
      obtain rfl | ⟨w, rfl, hw⟩ := List.prefix_cons_iff.mp hv
      · cases hlength
      · exact hlater w hw (Nat.lt_of_succ_lt_succ hlength)
    | none =>
      rw [hrest] at ih
      have hlater : ∀ v, v <+: c :: source → 0 < v.length → complete? (Rule.after v rules) =
        none := by
        intro v hv hlength
        obtain rfl | ⟨w, rfl, hw⟩ := List.prefix_cons_iff.mp hv
        · cases hlength
        · exact ih w hw
      cases hnow : complete? rules with
      | some k => exact ⟨Nat.zero_le _, hnow, hlater⟩
      | none =>
        intro v hv
        cases v with
        | nil => exact hnow
        | cons d v => exact hlater (d :: v) hv (Nat.zero_lt_succ _)

variable {source u v : List Char} {k : LexemeKind}

theorem longestStart_of_longestMatch {n : Nat}
    (hmatch : longestMatch Rule.all source = some (k, n)) :
    LongestStart source k (source.take n) ∧ n ≤ source.length := by
  have h := longestMatch_cases Rule.all source
  rw [hmatch] at h
  obtain ⟨hn, hk, hlater⟩ := h
  refine ⟨⟨List.take_prefix _ _, LexemeKind.complete?_after_iff.mp hk, ?_⟩, hn⟩
  intro k' v hv hmatches
  by_contra hlength
  have hlt : n < v.length := by
    rw [List.length_take, Nat.min_eq_left hn] at hlength
    omega
  exact LexemeKind.complete?_after_eq_none_iff.mp (hlater v hv hlt) k' hmatches

theorem longestMatch_eq_none_iff :
    longestMatch Rule.all source = none ↔ ∀ (k : LexemeKind) u, u <+: source → ¬ k.Matches u := by
  constructor
  · intro hmatch k u hu
    have h := longestMatch_cases Rule.all source
    rw [hmatch] at h
    exact LexemeKind.complete?_after_eq_none_iff.mp (h u hu) k
  · intro hnone
    rw [Option.eq_none_iff_forall_ne_some]
    rintro ⟨k, n⟩ hmatch
    obtain ⟨hlong, -⟩ := longestStart_of_longestMatch hmatch
    exact hnone k _ hlong.isPrefix hlong.isText

theorem LongestStart.longestMatch (h : LongestStart (u ++ v) k u) :
    longestMatch Rule.all (u ++ v) = some (k, u.length) := by
  cases hmatch : Source.longestMatch Rule.all (u ++ v) with
  | some kn =>
    obtain ⟨hlong, hn⟩ := longestStart_of_longestMatch hmatch
    obtain ⟨hu, rfl⟩ := h.unique hlong
    have hlength := congrArg List.length hu
    rw [List.length_take, Nat.min_eq_left hn] at hlength
    rw [hlength]
  | none => exact absurd h.isText (longestMatch_eq_none_iff.mp hmatch k u h.isPrefix)

/-! ### The text of an error -/

namespace Regex

variable {r s : Regex} {u w : List Char}

theorem matches_derivatives : (r.derivatives u).Matches w ↔ r.Matches (u ++ w) := by
  induction u generalizing r with
  | nil => rfl
  | cons c u ih => exact ih.trans matches_derivative

def ascii : List Char := (List.range 128).map Char.ofNat

/-- Each class of the expression has a member, which is looked for among the plain characters. -/
def productive : Regex → Bool
  | never => false
  | empty => true
  | one p => ascii.any p
  | seq r s | alt r s => r.productive && s.productive
  | star r => r.productive

theorem exists_matches (h : r.productive = true) : ∃ u, r.Matches u := by
  induction r with
  | never => cases h
  | empty => exact ⟨[], .empty⟩
  | one p =>
    obtain ⟨c, -, hc⟩ := List.any_eq_true.mp h
    exact ⟨[c], .one hc⟩
  | seq r s ihr ihs =>
    simp only [productive, Bool.and_eq_true] at h
    obtain ⟨u, hu⟩ := ihr h.1
    obtain ⟨v, hv⟩ := ihs h.2
    exact ⟨u ++ v, .seq hu hv⟩
  | alt r s ihr ihs =>
    simp only [productive, Bool.and_eq_true] at h
    obtain ⟨u, hu⟩ := ihr h.1
    exact ⟨u, .left hu⟩
  | star r ih => exact ⟨[], .stop⟩

theorem productive_andThen (hr : r = .never ∨ r.productive = true) (hs : s.productive = true) :
    r.andThen s = .never ∨ (r.andThen s).productive = true := by
  unfold andThen
  split
  · exact .inl rfl
  · cases hs
  · exact .inr hs
  · rename_i hnever _ _
    have hr := hr.resolve_left hnever
    exact .inr (by simp [productive, hr, hs])

theorem productive_orElse (hr : r = .never ∨ r.productive = true)
    (hs : s = .never ∨ s.productive = true) :
    r.orElse s = .never ∨ (r.orElse s).productive = true := by
  unfold orElse
  split
  · exact hs
  · exact hr
  · rename_i hr' hs'
    exact .inr (by simp [productive, hr.resolve_left hr', hs.resolve_left hs'])

theorem productive_derivative (h : r.productive = true) (c : Char) :
    r.derivative c = .never ∨ (r.derivative c).productive = true := by
  induction r with
  | never => cases h
  | empty => exact .inl rfl
  | one p => by_cases hc : p c = true <;> simp [derivative, hc, productive]
  | seq r s ihr ihs =>
    simp only [productive, Bool.and_eq_true] at h
    have hfirst := productive_andThen (ihr h.1) h.2
    by_cases hn : r.nullable = true
    · simpa [derivative, hn] using productive_orElse hfirst (ihs h.2)
    · simpa [derivative, hn] using hfirst
  | alt r s ihr ihs =>
    simp only [productive, Bool.and_eq_true] at h
    exact productive_orElse (ihr h.1) (ihs h.2)
  | star r ih => exact productive_andThen (ih h) h

end Regex

namespace Rule

variable {u : List Char} {rules : List Rule} {r : Rule}

theorem productive_all : ∀ r ∈ all, r.regex.productive = true := by decide +kernel

theorem productive_after (h : ∀ r ∈ rules, r.regex.productive = true) :
    ∀ r ∈ after u rules, r.regex.productive = true := by
  induction u generalizing rules with
  | nil => exact h
  | cons c u ih =>
    refine ih fun r hr => ?_
    obtain ⟨r₀, hr₀, hadvance⟩ := List.mem_filterMap.mp hr
    obtain hnever | hproductive := Regex.productive_derivative (h r₀ hr₀) c
    · rw [advance?_of_never hnever] at hadvance
      cases hadvance
    · rw [advance?_of_ne (by rintro hnever; simp [hnever, Regex.productive] at hproductive)]
        at hadvance
      cases hadvance
      exact hproductive

theorem mem_after_of_ne (hr : r ∈ rules) (h : r.regex.derivatives u ≠ .never) :
    ⟨r.kind, r.regex.derivatives u⟩ ∈ after u rules := by
  induction u generalizing rules r with
  | nil => exact hr
  | cons c u ih =>
    have hstep : r.regex.derivative c ≠ .never := by
      intro hnever
      rw [Regex.derivatives, List.foldl_cons, hnever] at h
      exact h (Regex.derivatives_never u)
    exact ih (List.mem_filterMap.mpr ⟨r, hr, advance?_of_ne hstep⟩) h

theorem after_ne_nil_iff (h : ∀ r ∈ rules, r.regex.productive = true) :
    after u rules ≠ [] ↔ ∃ r ∈ rules, ∃ w, r.regex.Matches (u ++ w) := by
  constructor
  · intro hne
    obtain ⟨r, hr⟩ := List.exists_mem_of_ne_nil _ hne
    obtain ⟨w, hw⟩ := Regex.exists_matches (productive_after h r hr)
    obtain ⟨r₀, hr₀, rfl⟩ := mem_after hr
    exact ⟨r₀, hr₀, w, Regex.matches_derivatives.mp hw⟩
  · rintro ⟨r, hr, w, hw⟩
    refine List.ne_nil_of_mem (mem_after_of_ne hr fun hnever => ?_)
    rw [← Regex.matches_derivatives, hnever] at hw
    exact Regex.not_matches_never hw

end Rule

def Viable (u : List Char) : Prop := ∃ (k : LexemeKind) (w : List Char), k.Matches (u ++ w)

theorem viable_iff : Viable u ↔ Rule.after u Rule.all ≠ [] := by
  rw [Rule.after_ne_nil_iff Rule.productive_all]
  constructor
  · rintro ⟨k, w, r, hr, -, h⟩
    exact ⟨r, hr, w, h⟩
  · rintro ⟨r, hr, w, h⟩
    exact ⟨r.kind, w, r, hr, rfl, h⟩

/-- What is shown of a source that starts with no lexeme: the longest text that could become one,
but at least one character. -/
structure Offending (source t : List Char) : Prop where
  isPrefix : t <+: source
  ne_nil : t ≠ []
  viable : t.length = 1 ∨ Viable t
  longest {v : List Char} (hv : v <+: source) (h : Viable v) : v.length ≤ t.length

theorem Offending.unique {t t' : List Char} (h : Offending source t) (h' : Offending source t') :
    t = t' := by
  have hle {t t' : List Char} (h : Offending source t) (h' : Offending source t') :
      t.length ≤ t'.length := by
    obtain hone | hviable := h.viable
    · rw [hone]
      exact List.length_pos_iff.mpr h'.ne_nil
    · exact h'.longest h.isPrefix hviable
  have hprefix := List.prefix_of_prefix_length_le h.isPrefix h'.isPrefix (hle h h')
  exact hprefix.eq_of_length (Nat.le_antisymm (hle h h') (hle h' h))

theorem viableLength_spec (rules : List Rule) (source : List Char) :
    viableLength rules source ≤ source.length ∧
    (rules ≠ [] → Rule.after (source.take (viableLength rules source)) rules ≠ []) ∧
    ∀ v, v <+: source → viableLength rules source < v.length → Rule.after v rules = [] := by
  induction source generalizing rules with
  | nil =>
    refine ⟨Nat.le_refl _, id, ?_⟩
    intro v hv hlength
    rw [List.prefix_nil.mp hv] at hlength
    cases hlength
  | cons c source ih =>
    have hnext {w : List Char} :
        Rule.after (c :: w) rules = Rule.after w (rules.filterMap (Rule.advance? c)) := rfl
    cases hrest : rules.filterMap (Rule.advance? c) with
    | nil =>
      have hzero : viableLength rules (c :: source) = 0 := by simp [viableLength, hrest]
      rw [hzero]
      refine ⟨Nat.zero_le _, id, ?_⟩
      intro v hv hlength
      obtain rfl | ⟨w, rfl, -⟩ := List.prefix_cons_iff.mp hv
      · cases hlength
      · rw [hnext, hrest, Rule.after_nil]
    | cons r rest =>
      obtain ⟨hn, hviable, hlater⟩ := ih (r :: rest)
      have hsucc : viableLength rules (c :: source) = viableLength (r :: rest) source + 1 := by
        simp [viableLength, hrest]
      rw [hsucc]
      refine ⟨Nat.succ_le_succ hn, fun _ => ?_, ?_⟩
      · rw [List.take_succ_cons, hnext, hrest]
        exact hviable (List.cons_ne_nil r rest)
      · intro v hv hlength
        obtain rfl | ⟨w, rfl, hw⟩ := List.prefix_cons_iff.mp hv
        · cases hlength
        · rw [hnext, hrest]
          exact hlater w hw (Nat.lt_of_succ_lt_succ hlength)

theorem offending_unexpectedText (c : Char) (source : List Char) :
    Offending (c :: source) (unexpectedText (c :: source)) := by
  obtain ⟨hn, hviable, hlater⟩ := viableLength_spec Rule.all (c :: source)
  have hlength : (unexpectedText (c :: source)).length =
    max 1 (viableLength Rule.all (c :: source)) := by
    rw [unexpectedText, List.length_take, Nat.min_eq_left]
    exact Nat.max_le.mpr ⟨Nat.succ_le_succ (Nat.zero_le _), hn⟩
  refine ⟨List.take_prefix _ _, ?_, ?_, ?_⟩
  · rw [← List.length_pos_iff, hlength]
    exact Nat.le_max_left 1 _
  · obtain hle | hle := Nat.le_total (viableLength Rule.all (c :: source)) 1
    · exact .inl (hlength.trans (Nat.max_eq_left hle))
    · right
      rw [unexpectedText, Nat.max_eq_right hle, viable_iff]
      exact hviable (by decide)
  · intro v hv h
    rw [hlength]
    by_contra hlt
    exact viable_iff.mp h (hlater v hv (by omega))

/-! ### The scanner as a relation -/

/-- What comes of scanning a source from a position on: blanks are skipped, and at any other place
the longest text that is there is taken. An opening that is the longest text is never closed. -/
inductive Scanned : Position → List Char → Except SyntaxError (List Lexeme) → Prop
  | done {p : Position} : Scanned p [] (.ok [])
  | skip {p : Position} {c : Char} {source : List Char} {result : Except SyntaxError (List Lexeme)}
    (hc : Rule.isBlank c = true) (h : Scanned (p.advance c) source result) :
    Scanned p (c :: source) result
  | take {p : Position} {k : LexemeKind} {u v : List Char}
    {result : Except SyntaxError (List Lexeme)}
    (hlong : LongestStart (u ++ v) k u) (hblank : k ≠ .blank)
    (hclosed : k ≠ .openComment ∧ k ≠ .openRawString) (h : Scanned (p.after u) v result) :
    Scanned p (u ++ v) (result.map (⟨k, u, p⟩ :: ·))
  | openComment {p : Position} {source u : List Char} (hlong : LongestStart source .openComment u) :
    Scanned p source (.error ⟨p, .openComment⟩)
  | openRawString {p : Position} {source u : List Char}
    (hlong : LongestStart source .openRawString u) :
    Scanned p source (.error ⟨p, .openRawString⟩)
  | unexpected {p : Position} {source t : List Char}
    (hnone : ∀ (k : LexemeKind) u, u <+: source → ¬ k.Matches u) (ht : Offending source t) :
    Scanned p source (.error ⟨p, .unexpected t⟩)

theorem Piece.taken_blanks {u v : List Char} (hne : u ≠ []) (hu : ∀ c ∈ u, Rule.isBlank c = true)
    (hv : ∀ c ∈ v.head?, Rule.isBlank c = false) : Taken ⟨.blank, u⟩ v := by
  refine ⟨hne, by simp, ?_⟩
  obtain ⟨c, u, rfl⟩ := List.exists_cons_of_ne_nil hne
  obtain ⟨hc, hu⟩ := List.forall_mem_cons.mp hu
  have hrules : Rule.all.filterMap (Rule.advance? c) = [⟨.blank, .star (.one Rule.isBlank)⟩] := by
    simp only [Rule.isBlank, Bool.or_eq_true, beq_iff_eq] at hc
    obtain ((rfl | rfl) | rfl) | rfl := hc
    all_goals rfl
  apply longestMatch_cons hrules
  apply longestMatch_loop rfl
  · intro d hd
    simp [Regex.derivative, Regex.andThen, hu d hd]
  · intro d hd
    simp [Regex.derivative, Regex.andThen, hv d hd]

theorem LongestStart.taken (h : LongestStart (u ++ v) k u)
    (hclosed : k ≠ .openComment ∧ k ≠ .openRawString) : Piece.Taken ⟨k, u⟩ v :=
  ⟨LexemeKind.ne_nil_of_matches h.isText, hclosed, h.longestMatch⟩

namespace Lexeme

def visible (p : Position) (source : List Char) : Except SyntaxError (List Lexeme) :=
  (scan 0 p source).map (·.filter (·.kind ≠ .blank))

theorem visible_taken {a : Piece} (h : a.Taken v) (p : Position) :
    visible p (a.text ++ v) =
      (visible (p.after a.text) v).map ([⟨a.kind, a.text, p⟩].filter (·.kind ≠ .blank) ++ ·) := by
  rw [visible, scan_taken h, visible]
  cases scan 0 (p.after a.text) v with
  | error e => rfl
  | ok ls => by_cases hblank : a.kind = .blank <;> simp [Except.map, hblank]

theorem visible_blanks (hu : ∀ c ∈ u, Rule.isBlank c = true)
    (hv : ∀ c ∈ v.head?, Rule.isBlank c = false) (p : Position) :
    visible p (u ++ v) = visible (p.after u) v := by
  by_cases hne : u = []
  · rw [hne]
    rfl
  · rw [visible_taken (Piece.taken_blanks hne hu hv)]
    cases visible (p.after u) v <;> rfl

theorem visible_skip {c : Char} (hc : Rule.isBlank c = true) (p : Position) (source : List Char) :
    visible p (c :: source) = visible (p.advance c) source := by
  let u := source.takeWhile Rule.isBlank
  let v := source.dropWhile Rule.isBlank
  have hsource : u ++ v = source := List.takeWhile_append_dropWhile
  have hu : ∀ d ∈ u, Rule.isBlank d = true := fun d hd => List.mem_takeWhile_imp hd
  have hv : ∀ d ∈ v.head?, Rule.isBlank d = false := by
    intro d hd
    have hhead := List.head?_dropWhile_not Rule.isBlank source
    rw [Option.mem_def.mp hd] at hhead
    exact hhead
  calc visible p (c :: source) = visible p ((c :: u) ++ v) := by rw [List.cons_append, hsource]
    _ = visible (p.after (c :: u)) v := visible_blanks (List.forall_mem_cons.mpr ⟨hc, hu⟩) hv p
    _ = visible ((p.advance c).after u) v := rfl
    _ = visible (p.advance c) source := by rw [← visible_blanks hu hv, hsource]

theorem visible_opening (h : LongestStart source k u) {problem : Problem}
    (hk : (k, problem) = (.openComment, .openComment) ∨
      (k, problem) = (.openRawString, .openRawString))
    (p : Position) : visible p source = .error ⟨p, problem⟩ := by
  obtain ⟨v, rfl⟩ := h.isPrefix
  obtain ⟨c, u, rfl⟩ := List.exists_cons_of_ne_nil (LexemeKind.ne_nil_of_matches h.isText)
  have hmatch := h.longestMatch
  rw [List.cons_append] at hmatch ⊢
  rw [visible, scan_zero_cons, hmatch]
  obtain hk | hk := hk
  · cases hk
    rfl
  · cases hk
    rfl

theorem visible_unexpected {t : List Char}
    (hnone : ∀ (k : LexemeKind) u, u <+: source → ¬ k.Matches u) (ht : Offending source t)
    (p : Position) : visible p source = .error ⟨p, .unexpected t⟩ := by
  cases source with
  | nil => exact absurd (List.prefix_nil.mp ht.isPrefix) ht.ne_nil
  | cons c source =>
    rw [visible, scan_zero_cons, longestMatch_eq_none_iff.mpr hnone,
      ht.unique (offending_unexpectedText c source)]
    rfl

end Lexeme

theorem Scanned.visible_eq {p : Position} {result : Except SyntaxError (List Lexeme)}
    (h : Scanned p source result) : Lexeme.visible p source = result := by
  induction h with
  | done => rfl
  | skip hc _ ih => rw [Lexeme.visible_skip hc, ih]
  | @take p k u v _ hlong hblank hclosed _ ih =>
    have htaken := Lexeme.visible_taken (hlong.taken hclosed) p
    rw [ih] at htaken
    simpa [hblank] using htaken
  | openComment hlong => exact Lexeme.visible_opening hlong (.inl rfl) _
  | openRawString hlong => exact Lexeme.visible_opening hlong (.inr rfl) _
  | unexpected hnone ht => exact Lexeme.visible_unexpected hnone ht _

theorem exists_scanned (p : Position) (source : List Char) : ∃ result, Scanned p source result := by
  -- By the length, since a lexeme takes more than one character off the source.
  induction hlength : source.length using Nat.strongRecOn generalizing p source with
  | ind n ih =>
    cases source with
    | nil => exact ⟨_, .done⟩
    | cons c source =>
      by_cases hc : Rule.isBlank c = true
      · obtain ⟨result, h⟩ := ih source.length (by simp [← hlength]) (p.advance c) source rfl
        exact ⟨result, .skip hc h⟩
      · cases hmatch : longestMatch Rule.all (c :: source) with
        | none =>
          have hnone := longestMatch_eq_none_iff.mp hmatch
          exact ⟨_, .unexpected hnone (offending_unexpectedText c source)⟩
        | some kn =>
          obtain ⟨k, m⟩ := kn
          obtain ⟨hlong, -⟩ := longestStart_of_longestMatch hmatch
          obtain ⟨v, hv⟩ := hlong.isPrefix
          obtain ⟨d, u, hu⟩ :=
            List.exists_cons_of_ne_nil (LexemeKind.ne_nil_of_matches hlong.isText)
          rw [hu] at hlong hv
          have hshorter : v.length < n := by
            rw [← hlength, ← hv, List.length_append, List.length_cons]
            omega
          cases hv
          by_cases hopen : k = .openComment
          · exact ⟨_, .openComment (hopen ▸ hlong)⟩
          · by_cases hraw : k = .openRawString
            · exact ⟨_, .openRawString (hraw ▸ hlong)⟩
            · have hblank : k ≠ .blank := by
                rintro rfl
                exact hc (LexemeKind.isBlank_of_matches hlong.isText)
              obtain ⟨result, h⟩ := ih v.length hshorter (p.after (c :: u)) v rfl
              exact ⟨_, .take hlong hblank ⟨hopen, hraw⟩ h⟩

theorem scanned_iff {p : Position} {result : Except SyntaxError (List Lexeme)} :
    Scanned p source result ↔ Lexeme.visible p source = result := by
  refine ⟨Scanned.visible_eq, ?_⟩
  rintro rfl
  obtain ⟨result, h⟩ := exists_scanned p source
  rwa [h.visible_eq]

theorem TokenStream.ofSource_eq_error_iff {source : List Char} {e : SyntaxError} :
    ofSource source = .error e ↔ Lexeme.visible .start source = .error e := by
  rw [ofSource, Lexeme.ofSource, Lexeme.visible]
  cases Lexeme.scan 0 .start source <;> simp [bind, Except.bind, Except.map]

theorem Problem.message_unexpected_iff {text : List Char} {s : String} :
    (unexpected text).message = "unexpected " ++ s ↔ Text.Quotes s text := by
  rw [Text.quotes_iff, message]
  exact ⟨fun h => ((String.append_right_inj _).mp h).symm, fun h => h ▸ rfl⟩

/-- The scanner takes the longest text that matches one of the rules, at every place that is not
blank, and which rule it is does not depend on their order. Where no rule matches, and at a comment
or raw string that is never closed, the source has no tokens but an error there. Its message quotes
the text that is not expected, and no other text has the same message. -/
theorem Lexeme.scan_longest :
    (∀ (u : List Char) (k k' : LexemeKind), k.Matches u → k'.Matches u → k = k') ∧
    (∀ (p : Position) (source : List Char) (result : Except SyntaxError (List Lexeme)),
      Scanned p source result ↔ (scan 0 p source).map (·.filter (·.kind ≠ .blank)) = result) ∧
    (∀ (source : List Char) (e : SyntaxError),
      TokenStream.ofSource source = .error e ↔ Scanned .start source (.error e)) ∧
    (∀ (text : List Char) (s : String),
      (Problem.unexpected text).message = "unexpected " ++ s ↔ Text.Quotes s text) ∧
    (∀ text text' : List Char,
      (Problem.unexpected text).message = (Problem.unexpected text').message → text = text') ∧
    Problem.openComment.message = "comment not terminated" ∧
    Problem.openRawString.message = "raw string literal not terminated" := by
  refine ⟨fun u k k' => LexemeKind.eq_of_matches, fun p source result => scanned_iff, ?_, ?_, ?_,
    ?_⟩
  · intro source e
    rw [scanned_iff, TokenStream.ofSource_eq_error_iff]
  · exact fun text s => Problem.message_unexpected_iff
  · intro text text' heq
    have hquotes : Text.Quotes (Text.quoted text') text := Problem.message_unexpected_iff.mp heq
    exact hquotes.text_unique (Text.quotes_iff.mpr rfl)
  · exact ⟨rfl, rfl⟩

/-- An exponent without digits is not part of a number. A string that is not closed is told with its
quote: the accented letter is shown, the tab has a name and the accent by itself a number. -/
theorem Lexeme.scan_longest_of_exponent :
    (LexemeKind.number.Matches ['1', 'e', '5'] ∧ ∀ k : LexemeKind, k.Matches ['1', 'e', '5'] →
      k = .number) ∧
    Scanned .start [' ', '1', 'e', '+']
      (.ok [⟨.number, ['1'], ⟨1, 2⟩⟩, ⟨.ident, ['e'], ⟨1, 3⟩⟩, ⟨.operator .add, ['+'], ⟨1, 4⟩⟩]) ∧
    (∃ e, Scanned .start ['x', ' ', '\x22', 'é', '\t', '\u0301'] (.error e) ∧
      e.message "t.go" = "t.go:1:3: syntax error: unexpected \"\\\"é\\t\\u\x7b301\x7d\"") := by
  have hnumber : LexemeKind.number.Matches ['1', 'e', '5'] :=
    ⟨⟨.number, Rule.decimal⟩, by simp [Rule.all], rfl, by decide⟩
  obtain ⟨hkind, hscan, hsource, -⟩ := scan_longest
  refine ⟨⟨hnumber, fun k h => hkind _ _ _ h hnumber⟩, (hscan _ _ _).mpr (by decide), ?_⟩
  refine ⟨⟨⟨1, 3⟩, .unexpected ['\x22', 'é', '\t', '\u0301']⟩, ?_, by decide +kernel⟩
  exact (hsource _ _).mp (by decide +kernel)

end FieldOrder.Source
