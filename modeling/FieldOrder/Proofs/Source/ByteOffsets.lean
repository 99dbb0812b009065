import FieldOrder.Proofs.Source.Positions
import FieldOrder.Proofs.Source.Splitting

/-! Lines and columns as offsets in bytes. The position of a token leads back to the place in the
source where its text is read, and the tokens stand there in their order. As long as lines and
columns fit in 32 bits, so does what is told of it. -/
namespace FieldOrder.Source

def byteLength (cs : List Char) : Nat := (String.ofList cs).utf8ByteSize

@[simp] theorem byteLength_nil : byteLength [] = 0 := rfl

@[simp] theorem byteLength_append (u v : List Char) :
    byteLength (u ++ v) = byteLength u + byteLength v := by
  rw [byteLength, String.ofList_append, String.utf8ByteSize_append]
  rfl

@[simp] theorem byteLength_singleton (c : Char) : byteLength [c] = c.utf8Size := by
  rw [byteLength, ← String.singleton_eq_ofList, String.utf8ByteSize_singleton]

theorem byteLength_cons (c : Char) (cs : List Char) :
    byteLength (c :: cs) = c.utf8Size + byteLength cs := by
  rw [← List.singleton_append, byteLength_append, byteLength_singleton]

theorem byteLength_pos {cs : List Char} (h : cs ≠ []) : 0 < byteLength cs := by
  obtain ⟨c, cs, rfl⟩ := List.exists_cons_of_ne_nil h
  rw [byteLength_cons]
  exact Nat.add_pos_left c.utf8Size_pos _

def lineStart : Nat → List Char → Option Nat
  | 0, _ => none
  | 1, _ => some 0
  | _ + 2, [] => none
  | n + 2, c :: cs => (lineStart (if c = '\n' then n + 1 else n + 2) cs).map (c.utf8Size + ·)

theorem lineStart_append_newline (u v : List Char) :
    lineStart (u.count '\n' + 2) (u ++ '\n' :: v) = some (byteLength u + 1) := by
  induction u with
  | nil =>
    have hsize : '\n'.utf8Size = 1 := rfl
    simp [lineStart, hsize]
  | cons c u ih =>
    rw [List.cons_append, List.count_cons, byteLength_cons]
    by_cases hc : c = '\n'
    · simp only [hc, beq_self_eq_true, if_pos]
      rw [Nat.add_right_comm, lineStart, if_pos rfl, ih]
      simp [Nat.add_assoc]
    · rw [if_neg (by simpa using hc), Nat.add_zero, lineStart, if_neg hc, ih]
      simp [Nat.add_assoc]

namespace Position

/-- The offset in bytes that a position stands for: where its line starts, and the columns in front
of it. -/
def offset? (p : Position) (source : List Char) : Option Nat :=
  (lineStart p.line source).map (· + p.column - 1)

theorem one_le_column_after (u : List Char) : 1 ≤ (start.after u).column := by
  induction u using List.reverseRecOn with
  | nil => exact Nat.le_refl 1
  | append_singleton u c ih =>
    rw [after_append]
    show 1 ≤ ((start.after u).advance c).column
    unfold advance
    split
    · exact Nat.le_refl 1
    · exact Nat.le_add_right_of_le ih

theorem offset?_after (u v : List Char) :
    (start.after u).offset? (u ++ v) = some (byteLength u) := by
  induction u using List.reverseRecOn generalizing v with
  | nil => simp [offset?, after, start, lineStart]
  | append_singleton u c ih =>
    have hstep : start.after (u ++ [c]) = (start.after u).advance c := after_append ..
    have hsource : u ++ [c] ++ v = u ++ c :: v := List.append_cons .. |>.symm
    rw [hstep, hsource, byteLength_append, byteLength_singleton]
    by_cases hc : c = '\n'
    · have hline : (start.after u).line + 1 = u.count '\n' + 2 := by
        simp only [line_after, start]
        omega
      rw [hc, advance, if_pos rfl, offset?, hline, lineStart_append_newline]
      rfl
    · obtain ⟨n, hn, hcolumn⟩ := Option.map_eq_some_iff.mp (ih (c :: v))
      have hone := one_le_column_after u
      rw [advance, if_neg hc, offset?, hn]
      simp only [Option.map_some, Option.some.injEq]
      omega

theorem after_le (u : List Char) :
    (start.after u).line ≤ byteLength u + 1 ∧ (start.after u).column ≤ byteLength u + 1 := by
  induction u using List.reverseRecOn with
  | nil => exact ⟨Nat.le_refl 1, Nat.le_refl 1⟩
  | append_singleton u c ih =>
    have hstep : start.after (u ++ [c]) = (start.after u).advance c := after_append ..
    have hsize := c.utf8Size_pos
    rw [hstep, byteLength_append, byteLength_singleton]
    by_cases hc : c = '\n'
    · rw [advance, if_pos hc]
      exact ⟨Nat.le_trans (Nat.add_le_add_right ih.1 1) (by omega), Nat.le_add_left _ _⟩
    · rw [advance, if_neg hc]
      exact ⟨Nat.le_trans ih.1 (by omega), Nat.le_trans (Nat.add_le_add_right ih.2 _) (by omega)⟩

@[simp] theorem told_line (p : Position) : p.told.line = p.line % UInt32.size := by
  simp [told, UInt32.size]

@[simp] theorem told_column (p : Position) : p.told.column = p.column % UInt32.size := by
  simp [told, UInt32.size]

theorem told_eq_self {p : Position} (hline : p.line < UInt32.size)
    (hcolumn : p.column < UInt32.size) : p.told = p := by
  calc p.told = ⟨p.told.line, p.told.column⟩ := rfl
    _ = ⟨p.line, p.column⟩ := by
      rw [told_line, told_column, Nat.mod_eq_of_lt hline, Nat.mod_eq_of_lt hcolumn]

theorem told_after {u : List Char} (h : byteLength u + 1 < UInt32.size) :
    (start.after u).told = start.after u := by
  obtain ⟨hline, hcolumn⟩ := after_le u
  exact told_eq_self (Nat.lt_of_le_of_lt hline h) (Nat.lt_of_le_of_lt hcolumn h)

end Position

/-! ### What is read at a token -/

/-- What the source reads at a token: its text, the quote that opens a literal, or, at a semicolon,
a line break, a comment or the end of the source if it is not written out. -/
def TokenKind.Reads : TokenKind → List Char → Prop
  | ident name, rest => name.toList <+: rest
  | number text, rest => text.toList <+: rest
  | operator op, rest => op.text.toList <+: rest
  | literal, rest => ∃ q ∈ ['\x22', '\x27', '\x60'], rest.head? = some q
  | semicolon, rest => [';'] <+: rest ∨ ['\n'] <+: rest ∨ ['/', '*'] <+: rest ∨ rest = []

namespace LexemeKind

variable {u : List Char}

theorem text_of_operator {op : Operator} (h : (LexemeKind.operator op).Matches u) :
    u = op.text.toList := by
  have hall : Rule.all = Rule.all.take 16 ++ Operator.all.map fun op =>
    ⟨.operator op, .text op.text.toList⟩ :=
    rfl
  have hothers : ∀ r ∈ Rule.all.take 16, (r.kind matches .operator _) = false := by decide
  obtain ⟨r, hr, hkind, hmatch⟩ := h
  rw [hall, List.mem_append, List.mem_map] at hr
  obtain hr | ⟨op', -, rfl⟩ := hr
  · have hother := hothers r hr
    rw [hkind] at hother
    cases hother
  · cases hkind
    exact Regex.matches_text.mp hmatch

theorem text_of_semicolon (h : LexemeKind.semicolon.Matches u) : u = [';'] := by
  obtain ⟨r, hr, hmatch⟩ := exists_rule (Rule.all.take 15) [⟨.semicolon, .text [';']⟩]
    (Rule.all.drop 16) rfl
    (by decide) h
  obtain rfl := List.mem_singleton.mp hr
  exact Regex.matches_text.mp hmatch

theorem quote_of_literal (h : LexemeKind.literal.Matches u) :
    ∃ q ∈ ['\x22', '\x27', '\x60'], u.head? = some q := by
  obtain hmatch | hmatch | hmatch := literal_of_matches h
  all_goals
    obtain ⟨q, v, rfl, hq, -⟩ := Regex.matches_one_seq.mp hmatch
    obtain rfl := beq_iff_eq.mp hq
    exact ⟨_, by decide, rfl⟩

end LexemeKind

namespace Lexeme

variable {l : Lexeme}

theorem reads_of_token? {kind : TokenKind} (htext : l.kind.Matches l.text)
    (htoken : l.token? = some kind) (rest : List Char) : kind.Reads (l.text ++ rest) := by
  obtain ⟨k, text, p⟩ := l
  cases k with
  | ident | number =>
    cases htoken
    simp [TokenKind.Reads]
  | literal =>
    cases htoken
    obtain ⟨q, hq, hhead⟩ := LexemeKind.quote_of_literal htext
    exact ⟨q, hq, by rw [List.head?_append, hhead]; rfl⟩
  | semicolon =>
    cases htoken
    rw [LexemeKind.text_of_semicolon htext]
    exact .inl (List.prefix_append _ _)
  | operator op =>
    cases htoken
    rw [LexemeKind.text_of_operator htext]
    exact List.prefix_append _ _
  | _ => cases htoken

theorem reads_of_breaksLine (htext : l.kind.Matches l.text) (hsilent : l.token? = none)
    (hbreak : l.breaksLine = true) (rest : List Char) :
    TokenKind.semicolon.Reads (l.text ++ rest) := by
  obtain ⟨-, heq⟩ | ⟨-, w, heq, -⟩ := of_breaksLine htext hsilent hbreak
  · rw [heq]
    exact .inr (.inl (List.prefix_append _ _))
  · rw [heq]
    exact .inr (.inr (.inl ⟨_, (List.append_assoc ..).symm⟩))

end Lexeme

namespace TokenStream

variable {source : List Char} {stream : TokenStream}

theorem stop_eq (h : ofSource source = .ok stream) : stream.stop = Position.start.after source := by
  obtain ⟨ls, -, hstream⟩ := bind_eq_ok.mp h
  cases hstream
  rfl

theorem exists_reads (h : ofSource source = .ok stream) {t : Token} (ht : t ∈ stream.tokens) :
    ∃ before rest, source = before ++ rest ∧ t.position = Position.start.after before ∧
      t.kind.Reads rest := by
  obtain ⟨ls, hls, hstream⟩ := bind_eq_ok.mp h
  cases hstream
  have htiling := Lexeme.tiling_of_scan hls
  obtain rfl | ⟨l, hl, hposition, horigin⟩ := origin_of_mem_insertSemicolons ht
  · exact ⟨source, [], (List.append_nil _).symm, rfl, .inr (.inr (.inr rfl))⟩
  · obtain ⟨before, after, rfl⟩ := List.append_of_mem hl
    refine ⟨before.flatMap (·.text), l.text ++ after.flatMap (·.text), ?_, ?_, ?_⟩
    · rw [← htiling.text, List.flatMap_append, List.flatMap_cons]
    · rw [hposition, htiling.position rfl]
    · obtain htoken | ⟨hsilent, hbreak, hkind⟩ := horigin
      · exact Lexeme.reads_of_token? (htiling.isText hl) htoken _
      · rw [hkind]
        exact Lexeme.reads_of_breaksLine (htiling.isText hl) hsilent hbreak _

theorem before_stop (h : ofSource source = .ok stream) {t : Token} (ht : t ∈ stream.tokens) :
    t.position.Before stream.stop ∨ t = ⟨.semicolon, stream.stop⟩ ∧ stream.tokens.getLast? =
      some t := by
  have hordered := pairwise_position h
  obtain ⟨ls, hls, hstream⟩ := bind_eq_ok.mp h
  cases hstream
  have hle {t : Token} (ht : t ∈ insertSemicolons (Position.start.after source) false ls) :
      t.position.Before (Position.start.after source) ∨
        t = ⟨.semicolon, Position.start.after source⟩ := by
    obtain heq | ⟨l, hl, hposition, -⟩ := origin_of_mem_insertSemicolons ht
    · exact .inr heq
    · exact .inl (hposition ▸ ((Lexeme.scan_positions hls).1 l hl).2)
  refine (hle ht).imp_right fun heq => ⟨heq, ?_⟩
  -- Behind the end there is nothing.
  obtain ⟨before, after, htokens⟩ := List.append_of_mem ht
  cases after with
  | nil => rw [htokens, List.getLast?_concat]
  | cons next after =>
    have hnext : next ∈ before ++ t :: next :: after := by simp
    rw [← htokens] at hnext
    rw [htokens, List.pairwise_append] at hordered
    have hbefore := (List.pairwise_cons.mp hordered.2.1).1 next List.mem_cons_self
    rw [heq] at hbefore
    obtain hnext | rfl := hle hnext
    · exact absurd (hbefore.trans hnext) (Position.not_before_self _)
    · exact absurd hbefore (Position.not_before_self _)

theorem told_after_of_lt {before rest : List Char} (hrest : rest ≠ [])
    (hsize : byteLength (before ++ rest) < UInt32.size) :
    (Position.start.after before).told = Position.start.after before := by
  have hpos := byteLength_pos hrest
  rw [byteLength_append] at hsize
  exact Position.told_after (by omega)

theorem told_of_mem (h : ofSource source = .ok stream) (hsize : byteLength source < UInt32.size)
    {t : Token} (ht : t ∈ stream.tokens) : t.told = t ∨ t = ⟨.semicolon, stream.stop⟩ := by
  refine (before_stop h ht).imp ?_ And.left
  intro hbefore
  obtain ⟨before, rest, rfl, hposition, -⟩ := exists_reads h ht
  have hrest : rest ≠ [] := by
    intro hnil
    rw [stop_eq h, hposition, hnil, List.append_nil] at hbefore
    exact Position.not_before_self _ hbefore
  have htold : t.position.told = t.position := hposition ▸ told_after_of_lt hrest hsize
  rw [Token.told, htold]

theorem told_eq_self (h : ofSource source = .ok stream) (hsize : byteLength source < UInt32.size)
    (hstop : stream.stop.told = stream.stop) : stream.told = stream := by
  have htokens : stream.tokens.map (·.told) = stream.tokens.map id := by
    refine List.map_congr_left fun t ht => ?_
    obtain htold | rfl := told_of_mem h hsize ht
    · exact htold
    · rw [Token.told, hstop]
      rfl
  rw [told, htokens, hstop, List.map_id]

theorem exists_position_of_error {e : SyntaxError} (h : ofSource source = .error e) :
    ∃ before rest, source = before ++ rest ∧ rest ≠ [] ∧
      e.position = Position.start.after before := by
  have hscan : Lexeme.scan 0 .start source = .error e :=
    Lexeme.scan_eq_error_of_visible (ofSource_eq_error_iff.mp h)
  obtain ⟨ps, rest, rfl, -, hfault, hposition⟩ := Lexeme.scan_eq_error_iff.mp hscan
  exact ⟨Piece.joined ps, rest, rfl, hfault.ne_nil, hposition⟩

theorem told_error {e : SyntaxError} (h : ofSource source = .error e)
    (hsize : byteLength source < UInt32.size) : e.told = e := by
  obtain ⟨before, rest, rfl, hrest, hposition⟩ := exists_position_of_error h
  have htold : e.position.told = e.position := hposition ▸ told_after_of_lt hrest hsize
  rw [SyntaxError.told, htold]

theorem listing_eq_ofSource (hsize : byteLength source < UInt32.size)
    (hstop : (Position.start.after source).told = Position.start.after source) :
    listing source = ofSource source := by
  rw [listing]
  cases h : ofSource source with
  | ok stream =>
    rw [← stop_eq h] at hstop
    exact congrArg Except.ok (told_eq_self h hsize hstop)
  | error e => exact congrArg Except.error (told_error h hsize)

end TokenStream

end FieldOrder.Source
