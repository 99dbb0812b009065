import FieldOrder.Proofs.Source.MaximalMunch

/-! Comments and raw strings, the lexemes that can go on over many lines. Each ends where its
closing stands for the first time behind the opening. So its text cannot go on behind the closing,
and where only the opening can be taken, no closing follows. -/
namespace FieldOrder.Source

/-! ### Texts with an opening and a closing -/

inductive Enclosure where
  | comment
  | rawString

namespace Enclosure

def opening : Enclosure → List Char
  | comment => ['/', '*']
  | rawString => ['\x60']

def closing : Enclosure → List Char
  | comment => ['*', '/']
  | rawString => ['\x60']

def kind : Enclosure → LexemeKind
  | comment => .blockComment
  | rawString => .literal

def openKind : Enclosure → LexemeKind
  | comment => .openComment
  | rawString => .openRawString

def problem : Enclosure → Problem
  | comment => .openComment
  | rawString => .openRawString

/-- A text from the opening to the first closing behind it. -/
def Encloses (e : Enclosure) (u : List Char) : Prop :=
  ∃ w, u = e.opening ++ (w ++ e.closing) ∧ ¬ e.closing <:+: w ++ e.closing.dropLast

variable {e : Enclosure} {u v w : List Char}

theorem ne_openKind {k : LexemeKind} :
    (∀ e : Enclosure, k ≠ e.openKind) ↔ k ≠ .openComment ∧ k ≠ .openRawString := by
  constructor
  · intro h
    exact ⟨h .comment, h .rawString⟩
  · intro h e
    cases e with
    | comment => exact h.1
    | rawString => exact h.2

theorem newline_not_mem_opening (e : Enclosure) : '\n' ∉ e.opening := by
  cases e <;> decide

theorem closing_ne_nil (e : Enclosure) : e.closing ≠ [] := by
  cases e <;> simp [closing]

theorem Encloses.eq_of_isPrefix (hu : e.Encloses u) (hw : e.Encloses w) (h : u <+: w) : u = w := by
  obtain ⟨x, rfl, -⟩ := hu
  obtain ⟨y, rfl, hy⟩ := hw
  have hrest : x ++ e.closing <+: y ++ e.closing := (List.prefix_append_right_inj _).mp h
  obtain hlast | hearly := Nat.lt_or_ge (y ++ e.closing.dropLast).length (x ++ e.closing).length
  · have hlength : (y ++ e.closing).length ≤ (x ++ e.closing).length := by
      simp only [List.length_append, List.length_dropLast] at hlast ⊢
      omega
    rw [hrest.eq_of_length_le hlength]
  · -- The shorter text ends in front of the last character, so that its closing comes too early.
    have hstart : y ++ e.closing.dropLast <+: y ++ e.closing :=
      (List.prefix_append_right_inj _).mpr (List.dropLast_prefix _)
    have hprefix := List.prefix_of_prefix_length_le hrest hstart hearly
    exact absurd ((List.suffix_append x _).isInfix.trans hprefix.isInfix) hy

theorem Encloses.opening_isPrefix (h : e.Encloses w) (hbreak : v ++ ['\n'] <+: w) :
    e.opening <+: v := by
  obtain ⟨x, rfl, -⟩ := h
  have hopening : e.opening <+: e.opening ++ (x ++ e.closing) := List.prefix_append _ _
  obtain hlong | hshort := Nat.lt_or_ge v.length e.opening.length
  · have hinside : v ++ ['\n'] <+: e.opening := by
      refine List.prefix_of_prefix_length_le hbreak hopening ?_
      rw [List.length_append]
      exact hlong
    exact absurd (hinside.subset (by simp)) e.newline_not_mem_opening
  · exact List.prefix_of_prefix_length_le hopening ((List.prefix_append _ _).trans hbreak) hshort

theorem exists_encloses (e : Enclosure) {rest : List Char} (h : e.closing <:+: rest) :
    ∃ u, e.Encloses u ∧ u <+: e.opening ++ rest := by
  obtain ⟨w, v, hrest⟩ := h
  have hw : w ++ e.closing <+: rest := ⟨v, hrest⟩
  clear hrest
  -- By the length of what stands in front of the closing: an earlier closing has less in front of
  -- it.
  induction hlength : w.length using Nat.strongRecOn generalizing w with
  | ind n ih =>
    by_cases hearly : e.closing <:+: w ++ e.closing.dropLast
    · obtain ⟨x, y, hxy⟩ := hearly
      have hstart : w ++ e.closing.dropLast <+: w ++ e.closing :=
        (List.prefix_append_right_inj _).mpr (List.dropLast_prefix _)
      have hprefix : x ++ e.closing <+: rest := (List.IsPrefix.trans ⟨y, hxy⟩ hstart).trans hw
      have hshorter : x.length < n := by
        have hcount := congrArg List.length hxy
        have hpos := List.length_pos_iff.mpr e.closing_ne_nil
        simp only [List.length_append, List.length_dropLast] at hcount
        omega
      exact ih x.length hshorter x hprefix rfl
    · exact ⟨e.opening ++ (w ++ e.closing), ⟨w, rfl, hearly⟩,
        (List.prefix_append_right_inj _).mpr hw⟩

end Enclosure

/-! ### The rules -/

namespace Regex

theorem matches_char {c : Char} {u : List Char} : (Regex.one (· == c)).Matches u ↔ u = [c] := by
  simp only [matches_one, beq_iff_eq]
  constructor
  · intro h
    obtain ⟨d, rfl, rfl⟩ := h
    rfl
  · intro h
    exact ⟨c, rfl, h⟩

theorem matches_plus_char {c : Char} {u : List Char} :
    (plus (.one (· == c))).Matches u ↔ ∃ n, u = List.replicate (n + 1) c := by
  simp only [plus, matches_one_seq, matches_star_one, beq_iff_eq]
  constructor
  · intro h
    obtain ⟨_, v, rfl, rfl, hv⟩ := h
    exact ⟨v.length, congrArg _ (List.eq_replicate_of_mem hv)⟩
  · intro h
    obtain ⟨n, rfl⟩ := h
    exact ⟨c, List.replicate n c, rfl, rfl, fun d hd => List.eq_of_mem_replicate hd⟩

end Regex

namespace Rule

variable {c : Char} {u v w : List Char}

theorem matches_rawString : rawString.Matches u ↔ Enclosure.rawString.Encloses u := by
  simp only [rawString, Regex.seqs, Regex.matches_seq, Regex.matches_char, Regex.matches_star_one,
    Regex.matches_empty, bne_iff_ne]
  constructor
  · intro h
    obtain ⟨_, _, rfl, rfl, w, _, rfl, hw, _, _, rfl, rfl, rfl⟩ := h
    refine ⟨w, rfl, fun hclosing => ?_⟩
    exact hw '\x60' (by simpa [Enclosure.closing] using hclosing.subset) rfl
  · intro h
    obtain ⟨w, rfl, hw⟩ := h
    refine ⟨_, _, rfl, rfl, w, _, rfl, fun c hc heq => ?_, _, _, rfl, rfl, rfl⟩
    obtain ⟨x, y, rfl⟩ := List.append_of_mem hc
    exact hw ⟨x, y, by simp [Enclosure.closing, heq]⟩

def commentStep : Regex :=
  .alt (.one (· != '*')) (.seq (.plus (.one (· == '*'))) (.one fun c => c != '*' && c != '/'))

def commentRest : Regex := .seqs [.star commentStep, .plus (.one (· == '*')), .one (· == '/')]

theorem matches_commentStep : commentStep.Matches u ↔
    ∃ n c, u = List.replicate n '*' ++ [c] ∧ c ≠ '*' ∧ (c = '/' → n = 0) := by
  simp only [commentStep, Regex.matches_alt, Regex.matches_seq, Regex.matches_plus_char,
    Regex.matches_one, Bool.and_eq_true, bne_iff_ne]
  constructor
  · intro h
    obtain ⟨c, hc, rfl⟩ | ⟨_, _, rfl, ⟨n, rfl⟩, c, hc, rfl⟩ := h
    · exact ⟨0, c, rfl, hc, fun _ => rfl⟩
    · exact ⟨n + 1, c, rfl, hc.1, fun hslash => absurd hslash hc.2⟩
  · intro h
    obtain ⟨n, c, rfl, hc, hslash⟩ := h
    cases n with
    | zero => exact .inl ⟨c, hc, rfl⟩
    | succ n =>
      exact .inr ⟨_, _, rfl, ⟨n, rfl⟩, c, ⟨hc, fun h => absurd (hslash h) n.succ_ne_zero⟩, rfl⟩

theorem commentRest_step (hu : commentStep.Matches u) (hv : commentRest.Matches v) :
    commentRest.Matches (u ++ v) := by
  obtain ⟨body, closing, rfl, hbody, hclosing⟩ := Regex.matches_seq.mp hv
  rw [← List.append_assoc]
  exact .seq (.more hu hbody) hclosing

theorem closing_cons :
    ['*', '/'] <:+: c :: w ↔ (c = '*' ∧ w.head? = some '/') ∨ ['*', '/'] <:+: w := by
  rw [List.infix_cons_iff, List.cons_prefix_cons, eq_comm]
  cases w with
  | nil => simp
  | cons d w => simp [eq_comm]

theorem closing_replicate {n : Nat} (hslash : w.head? = some '/' → n = 0) :
    ['*', '/'] <:+: List.replicate n '*' ++ w ↔ ['*', '/'] <:+: w := by
  induction n with
  | zero => rfl
  | succ n ih =>
    have hhead : w.head? ≠ some '/' := fun h => absurd (hslash h) n.succ_ne_zero
    rw [List.replicate_succ, List.cons_append, closing_cons, ih fun h => absurd h hhead]
    cases n <;> simp [List.replicate_succ, hhead]

theorem closing_body (h : (Regex.star commentStep).Matches u) :
    ['*', '/'] <:+: u ++ w ↔ ['*', '/'] <:+: w := by
  generalize hr : Regex.star commentStep = r at h
  induction h with
  | stop => rfl
  | @more _ _ v hstep _ _ ih =>
    cases hr
    obtain ⟨n, c, rfl, hc, hslash⟩ := matches_commentStep.mp hstep
    have hhead : (c :: (v ++ w)).head? = some '/' → n = 0 := fun h => hslash (Option.some.inj h)
    rw [List.append_assoc, List.append_assoc, List.singleton_append, closing_replicate hhead,
      closing_cons, ih rfl]
    simp [hc]
  | _ => cases hr

/-- Up to the first closing the characters can be taken, with stars waiting in front of them. -/
theorem commentRest_of_not_closing {n : Nat}
    (h : ¬ ['*', '/'] <:+: List.replicate n '*' ++ (w ++ ['*'])) :
    commentRest.Matches (List.replicate n '*' ++ (w ++ ['*', '/'])) := by
  induction w generalizing n with
  | nil =>
    have heq : List.replicate n '*' ++ ['*', '/'] = [] ++
      (List.replicate (n + 1) '*' ++ (['/'] ++ [])) := by
      simp [List.replicate_succ']
    rw [List.nil_append, heq]
    exact .seq .stop (.seq (Regex.matches_plus_char.mpr ⟨n, rfl⟩) (.seq (.one rfl) .empty))
  | cons c w ih =>
    by_cases hc : c = '*'
    · -- One more star waits.
      have hnext (v : List Char) :
          List.replicate n '*' ++ (c :: w ++ v) = List.replicate (n + 1) '*' ++ (w ++ v) := by
        simp [hc, List.replicate_succ']
      rw [hnext] at h ⊢
      exact ih h
    · have hslash : c = '/' → n = 0 := by
        intro hslash
        cases n with
        | zero => rfl
        | succ n =>
          refine absurd ⟨List.replicate n '*', w ++ ['*'], ?_⟩ h
          simp [hslash, List.replicate_succ']
      have hrest : commentRest.Matches (w ++ ['*', '/']) := @ih 0 fun hclosing =>
        h (hclosing.trans ⟨List.replicate n '*' ++ [c], [], by simp⟩)
      simpa using commentRest_step (matches_commentStep.mpr ⟨n, c, rfl, hc, hslash⟩) hrest

theorem matches_commentRest :
    commentRest.Matches u ↔ ∃ w, u = w ++ ['*', '/'] ∧ ¬ ['*', '/'] <:+: w ++ ['*'] := by
  constructor
  · intro h
    simp only [commentRest, Regex.seqs, Regex.matches_seq, Regex.matches_plus_char,
      Regex.matches_char, Regex.matches_empty] at h
    obtain ⟨body, _, rfl, hbody, _, _, rfl, ⟨n, rfl⟩, _, _, rfl, rfl, rfl⟩ := h
    refine ⟨body ++ List.replicate n '*', by simp [List.replicate_succ'], ?_⟩
    have hstars : ¬ ['*', '/'] <:+: List.replicate (n + 1) '*' ++ [] := by
      rw [closing_replicate (by simp)]
      simp
    rw [List.append_assoc, closing_body hbody]
    simpa [List.replicate_succ'] using hstars
  · intro h
    obtain ⟨w, rfl, hw⟩ := h
    exact @commentRest_of_not_closing w 0 hw

theorem matches_blockComment : blockComment.Matches u ↔ Enclosure.comment.Encloses u := by
  have hsplit : blockComment = .seq (.text ['/', '*']) commentRest := rfl
  simp only [hsplit, Regex.matches_seq, Regex.matches_text, matches_commentRest]
  constructor
  · intro h
    obtain ⟨_, _, rfl, rfl, w, rfl, hw⟩ := h
    exact ⟨w, rfl, hw⟩
  · intro h
    obtain ⟨w, rfl, hw⟩ := h
    exact ⟨_, _, rfl, rfl, w, rfl, hw⟩

end Rule

theorem LexemeKind.literal_of_matches {u : List Char} (h : LexemeKind.literal.Matches u) :
    (Rule.quotedBy '\x22').Matches u ∨ (Rule.quotedBy '\x27').Matches u ∨
    Rule.rawString.Matches u := by
  obtain ⟨r, hr, hmatch⟩ := exists_rule (Rule.all.take 5)
    [⟨.literal, Rule.quotedBy '\x22'⟩, ⟨.literal, Rule.quotedBy '\x27'⟩, ⟨.literal, Rule.rawString⟩]
    (Rule.all.drop 8) rfl (by decide) h
  simp only [List.mem_cons, List.not_mem_nil, or_false] at hr
  obtain rfl | rfl | rfl := hr
  · exact .inl hmatch
  · exact .inr (.inl hmatch)
  · exact .inr (.inr hmatch)

namespace Enclosure

variable {e : Enclosure} {k : LexemeKind} {source u v : List Char}

theorem matches_opening : e.openKind.Matches u ↔ u = e.opening := by
  have hrule : ⟨e.openKind, .text e.opening⟩ ∈ Rule.all := by
    cases e <;> simp [Rule.all, openKind, opening]
  constructor
  · intro h
    obtain ⟨r, hr, hmatch⟩ : ∃ r ∈ [Rule.mk e.openKind (.text e.opening)], r.regex.Matches u := by
      cases e with
      | comment =>
        exact LexemeKind.exists_rule (Rule.all.take 4) _ (Rule.all.drop 5) rfl (by decide) h
      | rawString =>
        exact LexemeKind.exists_rule (Rule.all.take 8) _ (Rule.all.drop 9) rfl (by decide) h
    obtain rfl := List.mem_singleton.mp hr
    exact Regex.matches_text.mp hmatch
  · intro h
    exact ⟨_, hrule, rfl, Regex.matches_text.mpr h⟩

theorem Encloses.matches_kind (h : e.Encloses u) : e.kind.Matches u := by
  cases e with
  | comment =>
    exact ⟨⟨.blockComment, Rule.blockComment⟩, by simp [Rule.all], rfl,
      Rule.matches_blockComment.mpr h⟩
  | rawString =>
    exact ⟨⟨.literal, Rule.rawString⟩, by simp [Rule.all], rfl, Rule.matches_rawString.mpr h⟩

theorem encloses_of_matches (h : k.Matches (e.opening ++ v)) (hk : k ≠ e.openKind) :
    e.Encloses (e.opening ++ v) := by
  have hne : v ≠ [] := by
    intro hv
    rw [hv, List.append_nil] at h
    exact hk (LexemeKind.eq_of_matches h (matches_opening.mpr rfl))
  have hkind := LexemeKind.ofText_of_matches h
  cases e with
  | comment =>
    rw [show LexemeKind.ofText (comment.opening ++ v) = .blockComment by
      simp [LexemeKind.ofText, opening, hne]] at hkind
    rw [← hkind] at h
    obtain ⟨r, hr, hmatch⟩ := LexemeKind.exists_rule (Rule.all.take 3)
      [⟨.blockComment, Rule.blockComment⟩]
      (Rule.all.drop 4) rfl (by decide) h
    obtain rfl := List.mem_singleton.mp hr
    exact Rule.matches_blockComment.mp hmatch
  | rawString =>
    rw [show LexemeKind.ofText (rawString.opening ++ v) = .literal from
      LexemeKind.ofText_literal (.inr (.inr rfl)) hne] at hkind
    rw [← hkind] at h
    obtain hmatch | hmatch | hmatch := LexemeKind.literal_of_matches h
    · cases Regex.startsWith_of_matches hmatch
    · cases Regex.startsWith_of_matches hmatch
    · exact Rule.matches_rawString.mp hmatch

theorem not_closing_of_longestStart (h : LongestStart source e.openKind u) :
    ∃ rest, source = e.opening ++ rest ∧ ¬ e.closing <:+: rest := by
  obtain rfl := matches_opening.mp h.isText
  obtain ⟨rest, rfl⟩ := h.isPrefix
  refine ⟨rest, rfl, fun hclosing => ?_⟩
  obtain ⟨w, hw, hprefix⟩ := e.exists_encloses hclosing
  have hlength := h.longest hprefix hw.matches_kind
  obtain ⟨x, rfl, -⟩ := hw
  have hpos := List.length_pos_iff.mpr e.closing_ne_nil
  simp only [List.length_append] at hlength
  omega

end Enclosure

/-! ### Line breaks -/

theorem Regex.not_mem_of_avoids {r : Regex} {c : Char} {u : List Char} (h : r.avoids c = true)
    (hu : r.Matches u) : c ∉ u := by
  induction hu with
  | empty | stop => simp
  | one hp =>
    intro hmem
    obtain rfl := List.mem_singleton.mp hmem
    simp [avoids, hp] at h
  | seq _ _ ihr ihs =>
    simp only [avoids, Bool.and_eq_true] at h
    simp [ihr h.1, ihs h.2]
  | left _ ih =>
    simp only [avoids, Bool.and_eq_true] at h
    exact ih h.1
  | right _ ih =>
    simp only [avoids, Bool.and_eq_true] at h
    exact ih h.2
  | more _ _ ihr ihs => simp [ihr h, ihs h]

/-- A lexeme with a line break is a newline, a comment or a raw string. -/
theorem LexemeKind.of_newline_mem {k : LexemeKind} {u : List Char} (h : k.Matches u)
    (hmem : '\n' ∈ u) :
    k = .newline ∧ u = ['\n'] ∨ ∃ e : Enclosure, k = e.kind ∧ e.Encloses u := by
  have hlines : Rule.all.filter (fun r => !r.regex.avoids '\n') = [⟨.newline, .text ['\n']⟩,
      ⟨.blockComment, Rule.blockComment⟩, ⟨.literal, Rule.rawString⟩] := rfl
  obtain ⟨r, hr, rfl, hmatch⟩ := h
  have havoids : r.regex.avoids '\n' = false := by
    rw [← Bool.not_eq_true]
    intro havoids
    exact Regex.not_mem_of_avoids havoids hmatch hmem
  have hrule : r ∈ Rule.all.filter (fun r => !r.regex.avoids '\n') := by simp [hr, havoids]
  rw [hlines, List.mem_cons, List.mem_cons, List.mem_singleton] at hrule
  obtain rfl | rfl | rfl := hrule
  · exact .inl ⟨rfl, Regex.matches_text.mp hmatch⟩
  · exact .inr ⟨.comment, rfl, Rule.matches_blockComment.mp hmatch⟩
  · exact .inr ⟨.rawString, rfl, Rule.matches_rawString.mp hmatch⟩

theorem Lexeme.of_breaksLine {l : Lexeme} (htext : l.kind.Matches l.text)
    (hsilent : l.token? = none) (hbreak : l.breaksLine = true) :
    l.kind = .newline ∧ l.text = ['\n'] ∨ l.kind = .blockComment ∧
      Enclosure.comment.Encloses l.text := by
  have hmem : '\n' ∈ l.text := by simpa [breaksLine] using hbreak
  obtain hnewline | ⟨e, hkind, henclosed⟩ := LexemeKind.of_newline_mem htext hmem
  · exact .inl hnewline
  · cases e with
    | comment => exact .inr ⟨hkind, henclosed⟩
    | rawString => simp [token?, hkind, Enclosure.kind] at hsilent

end FieldOrder.Source
