import FieldOrder.Source.Token
import Mathlib.Data.List.Basic

/-! Scanning words, numbers, blanks and punctuation. A source that is put together from pieces, each
of them the longest match where it stands, is scanned into these pieces. Which rules are left after
the first character is all that has to be known of the rule table. -/
namespace FieldOrder.Source

namespace Regex

inductive Matches : Regex → List Char → Prop
  | empty : Matches .empty []
  | one {p : Char → Bool} {c : Char} (h : p c = true) : Matches (.one p) [c]
  | seq {r s : Regex} {u v : List Char} (hr : Matches r u) (hs : Matches s v) :
    Matches (.seq r s) (u ++ v)
  | left {r s : Regex} {u : List Char} (h : Matches r u) : Matches (.alt r s) u
  | right {r s : Regex} {u : List Char} (h : Matches s u) : Matches (.alt r s) u
  | stop {r : Regex} : Matches (.star r) []
  | more {r : Regex} {u v : List Char} (hr : Matches r u) (hs : Matches (.star r) v) :
    Matches (.star r) (u ++ v)

theorem matches_star_one {p : Char → Bool} {cs : List Char} :
    Matches (.star (.one p)) cs ↔ ∀ c ∈ cs, p c = true := by
  constructor
  · intro h
    generalize hr : Regex.star (.one p) = r at h
    induction h with
    | stop => simp
    | more hc _ _ ih =>
      cases hr
      cases hc with
      | one hp => exact List.forall_mem_cons.mpr ⟨hp, ih rfl⟩
    | _ => cases hr
  · intro h
    induction cs with
    | nil => exact .stop
    | cons c cs ih => exact .more (.one (h c (by simp))) (ih fun d hd => h d (by simp [hd]))

def startsWith (c : Char) : Regex → Bool
  | never => false
  | empty => false
  | one p => p c
  | seq r s => r.startsWith c || r.nullable && s.startsWith c
  | alt r s => r.startsWith c || s.startsWith c
  | star r => r.startsWith c

theorem derivative_eq_never {c : Char} {r : Regex} (h : r.startsWith c = false) :
    r.derivative c = never := by
  induction r with
  | never | empty => rfl
  | one p =>
    simp only [startsWith] at h
    simp [derivative, h]
  | seq r s ihr ihs =>
    simp only [startsWith, Bool.or_eq_false_iff, Bool.and_eq_false_iff] at h
    cases hn : r.nullable with
    | false => simp [derivative, hn, ihr h.1, andThen]
    | true =>
      have hs := h.2.resolve_left (by simp [hn])
      simp [derivative, hn, ihr h.1, ihs hs, andThen, orElse]
  | alt r s ihr ihs =>
    simp only [startsWith, Bool.or_eq_false_iff] at h
    simp [derivative, ihr h.1, ihs h.2, orElse]
  | star r ih => simp [derivative, ih h, andThen]

end Regex

namespace Rule

theorem advance?_eq_none {c : Char} {r : Rule} (h : r.regex.startsWith c = false) :
    r.advance? c = none := by
  simp [advance?, Regex.derivative_eq_never h, Regex.isNever]

theorem matches_identifier {c : Char} {cs : List Char} :
    identifier.Matches (c :: cs) ↔
      startsIdent c = true ∧ ∀ d ∈ cs, continuesIdent d = true := by
  constructor
  · intro h
    generalize hcs : c :: cs = ds at h
    cases h with
    | seq hc hs =>
      cases hc with
      | one hp =>
        cases hcs
        exact ⟨hp, Regex.matches_star_one.mp hs⟩
  · intro h
    exact .seq (.one h.1) (Regex.matches_star_one.mpr h.2)

theorem exists_cons_of_identifier {cs : List Char} (h : identifier.Matches cs) :
    ∃ c ds, cs = c :: ds := by
  cases h with
  | seq hc hs =>
    cases hc with
    | one hp => exact ⟨_, _, rfl⟩

instance : DecidablePred identifier.Matches
  | [] => isFalse fun h => by
    obtain ⟨c, ds, h⟩ := exists_cons_of_identifier h
    cases h
  | c :: cs => decidable_of_iff ((startsIdent c && cs.all continuesIdent) = true) <| by
    simp [matches_identifier]

theorem beq_of_class {p : Char → Bool} {c : Char} (h : p c = true) (d : Char) (hd : p d = false) :
    (c == d) = false := by
  apply beq_false_of_ne
  intro he
  rw [he, hd] at h
  cases h

theorem isDigit_of_startsIdent {c : Char} (h : startsIdent c = true) : c.isDigit = false := by
  delta startsIdent Char.isAlpha Char.isUpper Char.isLower at h
  simp only [Char.isDigit, Char.toNat, Bool.or_eq_true, Bool.and_eq_true, decide_eq_true_eq,
    beq_iff_eq, Bool.and_eq_false_iff, decide_eq_false_iff_not, Char.ext_iff, ge_iff_le,
    UInt32.le_iff_toNat_le, UInt32.ext_iff, Char.reduceVal, UInt32.reduceToNat] at h ⊢
  omega

theorem isBlank_of_startsIdent {c : Char} (h : startsIdent c = true) : isBlank c = false := by
  have hne := beq_of_class h
  simp (disch := decide) [isBlank, hne]

theorem isBlank_of_isDigit {c : Char} (h : c.isDigit = true) : isBlank c = false := by
  have hne := beq_of_class h
  simp (disch := decide) [isBlank, hne]

/-- If only one rule can go on with a character, what is left of it is all that is left. -/
theorem filterMap_advance? {c : Char} {before after : List Rule} {r : Rule}
    (hothers : ∀ s ∈ before ++ after, s.regex.startsWith c = false) :
    (before ++ r :: after).filterMap (advance? c) = (r.advance? c).toList := by
  have hnone : ∀ rs : List Rule, (∀ s ∈ rs, s.regex.startsWith c = false) →
      rs.filterMap (advance? c) = [] := by
    intro rs h
    exact List.filterMap_eq_nil_iff.mpr fun s hs => advance?_eq_none (h s hs)
  rw [List.filterMap_append, hnone before fun s hs => hothers s (by simp [hs]), List.nil_append,
    List.filterMap_cons]
  have hafter := hnone after fun s hs => hothers s (by simp [hs])
  cases r.advance? c with
  | none => simp [hafter]
  | some r' => simp [hafter]

theorem filterMap_advance?_of_startsIdent {c : Char} (h : startsIdent c = true) :
    all.filterMap (advance? c) = [⟨.ident, .star (.one continuesIdent)⟩] := by
  have hne := beq_of_class h
  have hdigit := isDigit_of_startsIdent h
  have hblank := isBlank_of_startsIdent h
  have hall : all = all.take 14 ++ ⟨.ident, identifier⟩ :: all.drop 15 := rfl
  have hr : advance? c ⟨.ident, identifier⟩ = some ⟨.ident, .star (.one continuesIdent)⟩ := by
    simp [advance?, identifier, Regex.derivative, Regex.nullable, Regex.andThen, Regex.isNever, h]
  rw [hall, filterMap_advance?, hr, Option.toList_some]
  simp (disch := decide) [all, Operator.all, Operator.text, Regex.startsWith, Regex.nullable,
    Regex.plus, Regex.text, Regex.seqs, quotedBy, rawString, lineComment, blockComment, decimal,
    fraction, hexadecimal, octal, binary, hne, hdigit, hblank]

def decimalRest : Regex :=
  .seqs [.star (.one isDigit), .opt (.seq (.one (· == '.')) (.star (.one isDigit))),
    .opt (exponent 'e' 'E'), imaginary]

theorem derivative_decimalRest {c : Char} (h : c.isDigit = true) :
    decimalRest.derivative c = decimalRest := by
  have hne := beq_of_class h
  have hrest : (Regex.seqs [.opt (.seq (.one (· == '.')) (.star (.one isDigit))),
      .opt (exponent 'e' 'E'), imaginary]).derivative c = .never := by
    apply Regex.derivative_eq_never
    simp (disch := decide) [Regex.seqs, Regex.startsWith, Regex.nullable, Regex.opt, exponent,
      imaginary, oneOf, hne]
  have hc : isDigit c = true := by simp [isDigit, h]
  rw [decimalRest, Regex.seqs, Regex.derivative, hrest]
  simp [Regex.derivative, Regex.nullable, Regex.andThen, Regex.orElse, Regex.seqs, hc]

theorem filterMap_advance?_of_isDigit {c : Char} (h : c.isDigit = true) (h0 : c ≠ '0') :
    all.filterMap (advance? c) = [⟨.number, decimalRest⟩] := by
  have hne := beq_of_class h
  have hident : startsIdent c = false := by
    cases hs : startsIdent c with
    | false => rfl
    | true => simp [isDigit_of_startsIdent hs] at h
  have hblank := isBlank_of_isDigit h
  have hall : all = all.take 9 ++ ⟨.number, decimal⟩ :: all.drop 10 := rfl
  have hr : advance? c ⟨.number, decimal⟩ = some ⟨.number, decimalRest⟩ := by
    simp [advance?, decimal, decimalRest, Regex.seqs, Regex.derivative, Regex.nullable,
      Regex.andThen, Regex.isNever, h]
  rw [hall, filterMap_advance?, hr, Option.toList_some]
  simp (disch := decide) [all, Operator.all, Operator.text, Regex.startsWith, Regex.nullable,
    Regex.plus, Regex.text, Regex.seqs, quotedBy, rawString, lineComment, blockComment,
    fraction, hexadecimal, octal, binary, identifier, hne, hident, hblank, h0]

end Rule

/-- A rule that stays the same goes on until a character that it cannot take. -/
theorem longestMatch_loop {r : Rule} {u v : List Char} (hr : r.regex.nullable = true)
    (hu : ∀ c ∈ u, r.regex.derivative c = r.regex)
    (hv : ∀ c ∈ v.head?, r.regex.derivative c = .never) :
    longestMatch [r] (u ++ v) = some (r.kind, u.length) := by
  have hstop : complete? [r] = some r.kind := by simp [complete?, hr]
  induction u with
  | nil =>
    cases v with
    | nil => simp [longestMatch, hstop]
    | cons c v =>
      have hc : r.advance? c = none := by simp [Rule.advance?, hv c rfl, Regex.isNever]
      simp [longestMatch, hc, hstop]
  | cons c u ih =>
    have hnever : r.regex.isNever = false := by
      cases hk : r.regex with
      | never => simp [hk, Regex.nullable] at hr
      | _ => rfl
    have hc : r.advance? c = some r := by simp [Rule.advance?, hu c (by simp), hnever]
    have ih := ih fun d hd => hu d (by simp [hd])
    simp [longestMatch, hc, ih]

theorem longestMatch_cons {c : Char} {r : Rule} {cs : List Char} {k : LexemeKind} {n : Nat}
    (hc : Rule.all.filterMap (Rule.advance? c) = [r]) (h : longestMatch [r] cs = some (k, n)) :
    longestMatch Rule.all (c :: cs) = some (k, n + 1) := by
  simp [longestMatch, hc, h]

theorem longestMatch_single {c : Char} {k : LexemeKind} (v : List Char)
    (hc : Rule.all.filterMap (Rule.advance? c) = [⟨k, .empty⟩]) :
    longestMatch Rule.all (c :: v) = some (k, 1) :=
  longestMatch_cons hc (longestMatch_loop (u := []) (v := v) rfl (by simp) fun _ _ => rfl)

theorem toDigits_of_pos {n : Nat} (h : 0 < n) :
    ∃ c ds, Nat.toDigits 10 n = c :: ds ∧ c ≠ '0' ∧ ∀ d ∈ c :: ds, d.isDigit = true := by
  have hdigit : ∀ d ∈ Nat.toDigits 10 n, d.isDigit = true := fun d hd =>
    Nat.isDigit_of_mem_toDigits (by omega) (by omega) hd
  have hhead : ∃ c ds, Nat.toDigits 10 n = c :: ds ∧ c ≠ '0' := by
    clear hdigit
    induction n using Nat.strongRecOn with
    | ind n ih =>
      rw [Nat.toDigits_eq_if (by omega)]
      by_cases hn : n < 10
      · rw [if_pos hn]
        have hsmall : ∀ m < 10, 0 < m → Nat.digitChar m ≠ '0' := by decide
        exact ⟨_, [], rfl, hsmall n hn h⟩
      · obtain ⟨c, ds, hc, h0⟩ := ih (n / 10) (by omega) (by omega)
        rw [if_neg hn, hc]
        exact ⟨c, _, rfl, h0⟩
  obtain ⟨c, ds, hc, h0⟩ := hhead
  rw [hc] at hdigit
  exact ⟨c, ds, hc, h0, hdigit⟩

structure Piece where
  kind : LexemeKind
  text : List Char

namespace Piece

/-- The scanner takes this piece, and no more, in front of the given text. -/
structure Taken (a : Piece) (v : List Char) : Prop where
  ne_nil : a.text ≠ []
  closed : a.kind ≠ .openComment ∧ a.kind ≠ .openRawString
  longest : longestMatch Rule.all (a.text ++ v) = some (a.kind, a.text.length)

def word (name : String) : Piece := ⟨.ident, name.toList⟩

def number (n : Nat) : Piece := ⟨.number, n.repr.toList⟩

def operator (op : Operator) : Piece := ⟨.operator op, op.text.toList⟩

def semicolon : Piece := ⟨.semicolon, [';']⟩

def blank : Piece := ⟨.blank, [' ']⟩

def newline : Piece := ⟨.newline, ['\n']⟩

theorem taken_word {name : String} {v : List Char} (h : Rule.identifier.Matches name.toList)
    (hv : ∀ c ∈ v.head?, Rule.continuesIdent c = false) : (word name).Taken v := by
  obtain ⟨c, ds, hname⟩ := Rule.exists_cons_of_identifier h
  rw [hname, Rule.matches_identifier] at h
  obtain ⟨hc, hds⟩ := h
  refine ⟨by simp [word, hname], by simp [word], ?_⟩
  rw [word, hname, List.cons_append]
  apply longestMatch_cons (Rule.filterMap_advance?_of_startsIdent hc)
  apply longestMatch_loop rfl
  · intro d hd
    simp [Regex.derivative, Regex.andThen, hds d hd]
  · intro d hd
    simp [Regex.derivative, Regex.andThen, hv d hd]

theorem taken_number (n : Nat) (v : List Char) : (number n).Taken (']' :: v) := by
  refine ⟨by simp [number, Nat.toList_repr, Nat.toDigits_ne_nil], by simp [number], ?_⟩
  simp only [number, Nat.toList_repr]
  by_cases hn : n = 0
  · rw [hn, Nat.toDigits_zero]
    rfl
  · obtain ⟨c, ds, hc, h0, hdigit⟩ := toDigits_of_pos (Nat.pos_of_ne_zero hn)
    rw [hc, List.cons_append]
    apply longestMatch_cons (Rule.filterMap_advance?_of_isDigit (hdigit c (by simp)) h0)
    apply longestMatch_loop rfl
    · intro d hd
      exact Rule.derivative_decimalRest (hdigit d (by simp [hd]))
    · intro d hd
      cases hd
      rfl

theorem taken_single {c : Char} {k : LexemeKind} (v : List Char)
    (hc : Rule.all.filterMap (Rule.advance? c) = [⟨k, .empty⟩])
    (hk : k ≠ .openComment ∧ k ≠ .openRawString) : Taken ⟨k, [c]⟩ v :=
  ⟨by simp, hk, longestMatch_single v hc⟩

theorem taken_bracket {op : Operator} (v : List Char)
    (h : op ∈ [Operator.leftBracket, .rightBracket, .leftBrace, .rightBrace]) :
    (operator op).Taken v := by
  simp only [List.mem_cons, List.not_mem_nil, or_false] at h
  obtain rfl | rfl | rfl | rfl := h
  all_goals exact taken_single v rfl (by simp)

theorem taken_semicolon (v : List Char) : semicolon.Taken v :=
  taken_single v rfl (by simp)

theorem taken_newline (v : List Char) : newline.Taken v :=
  taken_single v rfl (by simp)

theorem taken_star (v : List Char) : (operator .star).Taken ('_' :: v) :=
  ⟨by simp [operator, Operator.text], by simp [operator], rfl⟩

theorem taken_blank {v : List Char} (hv : ∀ c ∈ v.head?, Rule.isBlank c = false) :
    blank.Taken v := by
  refine ⟨by simp [blank], by simp [blank], ?_⟩
  apply longestMatch_cons (c := ' ') (r := ⟨.blank, .star (.one Rule.isBlank)⟩) rfl
  apply longestMatch_loop (u := []) rfl (by simp)
  intro d hd
  simp [Regex.derivative, Regex.andThen, hv d hd]

def joined (ps : List Piece) : List Char := ps.flatMap (·.text)

def Split : List Piece → Prop
  | [] => True
  | a :: ps => a.Taken (joined ps) ∧ Split ps

def place (p : Position) : List Piece → List Lexeme
  | [] => []
  | a :: ps => ⟨a.kind, a.text, p⟩ :: place (p.after a.text) ps

end Piece

namespace Lexeme

theorem scan_owed (u v : List Char) (p : Position) :
    scan u.length p (u ++ v) = scan 0 (p.after u) v := by
  induction u generalizing p with
  | nil => rfl
  | cons c u ih => exact ih (p.advance c)

-- Stated and not taken from the equations of `scan`, whose proofs open the rule table.
theorem scan_zero_cons (p : Position) (c : Char) (cs : List Char) : scan 0 p (c :: cs) =
    match longestMatch Rule.all (c :: cs) with
    | none => .error ⟨p, .unexpected (unexpectedText (c :: cs))⟩
    | some (.openComment, _) => .error ⟨p, .openComment⟩
    | some (.openRawString, _) => .error ⟨p, .openRawString⟩
    | some (kind, n) =>
      (scan (n - 1) (p.advance c) cs).map (⟨kind, (c :: cs).take n, p⟩ :: ·) := (rfl)

theorem scan_eq_map {p : Position} {c : Char} {cs : List Char} {kind : LexemeKind} {n : Nat}
    (h : longestMatch Rule.all (c :: cs) = some (kind, n))
    (hkind : kind ≠ .openComment ∧ kind ≠ .openRawString) :
    scan 0 p (c :: cs) =
      (scan (n - 1) (p.advance c) cs).map (⟨kind, (c :: cs).take n, p⟩ :: ·) := by
  rw [scan_zero_cons, h]
  obtain ⟨hcomment, hraw⟩ := hkind
  cases kind with
  | openComment => exact absurd rfl hcomment
  | openRawString => exact absurd rfl hraw
  | _ => rfl

theorem scan_taken {a : Piece} {v : List Char} (h : a.Taken v) (p : Position) :
    scan 0 p (a.text ++ v) =
      (scan 0 (p.after a.text) v).map (⟨a.kind, a.text, p⟩ :: ·) := by
  obtain ⟨kind, text⟩ := a
  obtain ⟨hne, hclosed, hlong⟩ := h
  cases text with
  | nil => exact absurd rfl hne
  | cons c u =>
    simp only [List.cons_append] at hlong ⊢
    have howed : scan ((c :: u).length - 1) (p.advance c) (u ++ v) = scan 0 (p.after (c :: u)) v :=
      scan_owed u v (p.advance c)
    have htake : (c :: (u ++ v)).take (c :: u).length = c :: u := by simp
    rw [scan_eq_map hlong hclosed, howed, htake]

theorem scan_joined {ps : List Piece} (h : Piece.Split ps) (p : Position) :
    scan 0 p (Piece.joined ps) = .ok (Piece.place p ps) := by
  induction ps generalizing p with
  | nil => rfl
  | cons a ps ih =>
    have hjoin : Piece.joined (a :: ps) = a.text ++ Piece.joined ps := List.flatMap_cons
    rw [hjoin, scan_taken h.1, ih h.2]
    rfl

end Lexeme

end FieldOrder.Source
