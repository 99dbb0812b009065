import FieldOrder.Proofs.Source.LocalTypes
import FieldOrder.Proofs.Source.Positions
import FieldOrder.Proofs.Source.Splitting

/-! The tokens of a source, written on one line and scanned again. A blank keeps apart what the
scanner took apart, since no token starts or goes on with one. The semicolons that were put in at
the ends of lines are written out, so that none is put in again, not even at the end. -/
namespace FieldOrder.Source

namespace Piece

variable {a : Piece} {v : List Char}

theorem Taken.head_not_blank (h : a.Taken v) (hkind : a.kind ≠ .blank) (w : List Char) :
    ∀ c ∈ (a.text ++ w).head?, Rule.isBlank c = false := by
  intro c hc
  obtain ⟨d, u, hu⟩ := List.exists_cons_of_ne_nil h.ne_nil
  rw [hu] at hc
  cases hc
  rw [← Bool.not_eq_true]
  intro hblank
  have hofText := LexemeKind.ofText_of_matches h.longestStart.isText
  rw [hu, LexemeKind.ofText_blank hblank] at hofText
  exact hkind hofText.symm

theorem taken_operator (op : Operator) (v : List Char) : (operator op).Taken (' ' :: v) := by
  have hall : op ∈ Operator.all := by cases op <;> decide
  have hstop : ∀ op ∈ Operator.all, (Rule.after (op.text.toList ++ [' ']) Rule.all).isEmpty =
    true := by
    decide +kernel
  have htext : (LexemeKind.operator op).Matches op.text.toList :=
    ⟨⟨.operator op, .text op.text.toList⟩, by simp [Rule.all, hall], rfl,
      Regex.matches_text.mpr rfl⟩
  refine ⟨LexemeKind.ne_nil_of_matches htext, by simp [operator], ?_⟩
  exact longestMatch_append (LexemeKind.complete?_after_iff.mpr htext)
    (List.isEmpty_iff.mp (hstop op hall)) v

end Piece

namespace TokenKind

variable {kind : TokenKind} {kinds : List TokenKind}

/-! ### The line -/

def spelling : TokenKind → String
  | ident name => name
  | number text => text
  | literal => "\x22\x22"
  | operator op => op.text
  | semicolon => ";"

def line (kinds : List TokenKind) : String := " ".intercalate (kinds.map spelling)

def linePieces (ending : List Piece) : List TokenKind → List Piece
  | [] => ending
  | [kind] => kind.piece false :: ending
  | kind :: next :: kinds => kind.piece false :: .blank :: linePieces ending (next :: kinds)

theorem text_piece (kind : TokenKind) : (kind.piece false).text = kind.spelling.toList := by
  cases kind <;> rfl

theorem token?_piece (kind : TokenKind) : (kind.piece false).token? = some kind := by
  cases kind with
  | number text => simp [piece, Piece.token?, Lexeme.token?]
  | literal => rfl
  | _ => simp [piece]

theorem joined_linePieces (ending : List Piece) (kinds : List TokenKind) :
    Piece.joined (linePieces ending kinds) = (line kinds).toList ++ Piece.joined ending := by
  fun_induction linePieces ending kinds with
  | case1 => rfl
  | case2 kind => simp [line, Piece.joined_cons, text_piece]
  | case3 kind next kinds ih =>
    rw [Piece.joined_cons, Piece.joined_cons, ih, text_piece]
    simp [line, String.intercalate_cons_cons, Piece.blank]

theorem filterMap_token?_linePieces (ending : List Piece) (kinds : List TokenKind) :
    (linePieces ending kinds).filterMap Piece.token? = kinds ++ ending.filterMap Piece.token? := by
  fun_induction linePieces ending kinds with
  | case1 => rfl
  | case2 kind => simp [token?_piece]
  | case3 kind next kinds ih =>
    rw [List.filterMap_cons_some (token?_piece kind), List.filterMap_cons_none Piece.token?_blank,
      ih]
    rfl

theorem blank_of_token?_linePieces {ending : List Piece}
    (h : ∀ a ∈ ending, a.token? = none → a = .blank)
    (kinds : List TokenKind) : ∀ a ∈ linePieces ending kinds, a.token? = none → a = .blank := by
  fun_induction linePieces ending kinds with
  | case1 => exact h
  | case2 kind => simpa [token?_piece] using h
  | case3 kind next kinds ih => simpa [token?_piece] using ih

/-! ### Scanning the line -/

def Scannable : TokenKind → Prop
  | ident name => Rule.identifier.Matches name.toList
  | number text => IsNumber text
  | literal | operator _ | semicolon => True

theorem Scannable.taken (h : kind.Scannable) (v : List Char) :
    (kind.piece false).Taken (' ' :: v) := by
  cases kind with
  | operator op => exact Piece.taken_operator op v
  | _ =>
    apply taken_piece
    exact h

theorem Scannable.head_not_blank (h : kind.Scannable) (w : List Char) :
    ∀ c ∈ ((kind.piece false).text ++ w).head?, Rule.isBlank c = false := by
  refine (h.taken []).head_not_blank ?_ w
  cases kind <;> simp [piece, Piece.word, Piece.operator, Piece.semicolon]

theorem split_linePieces (h : ∀ kind ∈ kinds, kind.Scannable) {ending : List Piece}
    (hending : ending = [] ∨ ending = [.blank]) : Piece.Split (linePieces ending kinds) := by
  have hend : Piece.Split ending := by
    obtain rfl | rfl := hending
    · trivial
    · exact ⟨Piece.taken_blank (by simp [Piece.joined]), trivial⟩
  fun_induction linePieces ending kinds with
  | case1 => exact hend
  | case2 kind =>
    have htaken := (h kind (by simp)).taken []
    obtain rfl | rfl := hending
    · exact ⟨htaken.of_append (v := []), hend⟩
    · exact ⟨htaken, hend⟩
  | case3 kind next kinds ih =>
    obtain ⟨hkind, hrest⟩ := List.forall_mem_cons.mp h
    refine ⟨hkind.taken _, Piece.taken_blank ?_, ih hrest⟩
    -- The text behind the blank starts with `next`, whether or not it is the last token.
    cases kinds with
    | nil => exact (hrest next (by simp)).head_not_blank _
    | cons => exact (hrest next (by simp)).head_not_blank _

/-! ### The semicolons -/

/-- No statement is left open at the end. `pending` says that the token in front of the tokens can
end a statement. -/
def Closed : (pending : Bool) → List TokenKind → Prop
  | pending, [] => pending = false
  | _, kind :: kinds => Closed kind.canEndStatement kinds

end TokenKind

namespace TokenStream

/-- Where line breaks end statements, and the end of the source the last one, none is left open. -/
theorem closed_insertSemicolons (stop : Position) (pending : Bool) (ls : List Lexeme) :
    TokenKind.Closed pending ((insertSemicolons stop pending ls).map (·.kind)) := by
  fun_induction insertSemicolons stop pending ls with
  | case1 => rfl
  | case2 _ hpending => exact Bool.eq_false_of_not_eq_true hpending
  | case3 _ l ls kind _ ih => exact ih
  | case4 _ l ls _ _ ih => exact ih
  | case5 _ l ls _ _ ih => exact ih

theorem kinds_insertSemicolons_place {ps : List Piece} {pending : Bool}
    (hblank : ∀ a ∈ ps, a.token? = none → a = .blank)
    (hclosed : TokenKind.Closed pending (ps.filterMap Piece.token?)) (stop p : Position) :
    (insertSemicolons stop pending (Piece.place p ps)).map (·.kind) =
    ps.filterMap Piece.token? := by
  induction ps generalizing pending p with
  | nil =>
    obtain rfl : pending = false := hclosed
    rfl
  | cons a ps ih =>
    obtain ⟨ha, hps⟩ := List.forall_mem_cons.mp hblank
    cases htoken : a.token? with
    | none =>
      obtain rfl := ha htoken
      rw [List.filterMap_cons_none htoken] at hclosed ⊢
      rw [← ih hps hclosed (p.after Piece.blank.text)]
      exact congrArg _ (TokenKind.insertSemicolons_blank stop pending p _)
    | some kind =>
      rw [List.filterMap_cons_some htoken] at hclosed ⊢
      have hlexeme : Lexeme.token? ⟨a.kind, a.text, p⟩ = some kind := htoken
      simp only [Piece.place, insertSemicolons, hlexeme, List.map_cons,
        ih hps hclosed (p.after a.text)]

theorem exists_stream_of_line {kinds : List TokenKind} (hscannable : ∀ kind ∈ kinds, kind.Scannable)
    (hclosed : TokenKind.Closed false kinds) {ending : String}
    (hending : ending = "" ∨ ending = " ") :
    ∃ stream, ofSource (TokenKind.line kinds ++ ending).toList = .ok stream ∧
      stream.tokens.map (·.kind) = kinds := by
  obtain ⟨pieces, hpieces, htext⟩ : ∃ pieces : List Piece,
      (pieces = [] ∨ pieces = [.blank]) ∧ Piece.joined pieces = ending.toList := by
    obtain rfl | rfl := hending
    · exact ⟨[], .inl rfl, rfl⟩
    · exact ⟨[.blank], .inr rfl, rfl⟩
  have hjoined : (TokenKind.line kinds ++ ending).toList =
      Piece.joined (TokenKind.linePieces pieces kinds) := by
    rw [TokenKind.joined_linePieces, htext, String.toList_append]
  have hkinds : (TokenKind.linePieces pieces kinds).filterMap Piece.token? = kinds := by
    rw [TokenKind.filterMap_token?_linePieces]
    obtain rfl | rfl := hpieces <;> simp
  have hblank : ∀ a ∈ TokenKind.linePieces pieces kinds, a.token? = none → a = .blank := by
    apply TokenKind.blank_of_token?_linePieces
    obtain rfl | rfl := hpieces <;> simp
  rw [hjoined, ofSource, Lexeme.ofSource,
    Lexeme.scan_joined (TokenKind.split_linePieces hscannable hpieces)]
  refine ⟨_, rfl, ?_⟩
  rw [← hkinds] at hclosed
  exact (kinds_insertSemicolons_place hblank hclosed _ _).trans hkinds

end TokenStream

/-! ### What the scanner gives -/

theorem Lexeme.scannable_of_token? {l : Lexeme} {kind : TokenKind}
    (hmatches : l.kind.Matches l.text) (htoken : l.token? = some kind) : kind.Scannable := by
  obtain ⟨k, text, p⟩ := l
  cases k with
  | ident =>
    cases htoken
    simpa [TokenKind.Scannable] using LexemeKind.identifier_of_matches hmatches
  | number =>
    cases htoken
    simpa [TokenKind.Scannable, IsNumber] using LexemeKind.number_of_matches hmatches
  | literal | semicolon | operator op =>
    cases htoken
    trivial
  | _ => cases htoken

namespace TokenStream

variable {source : List Char} {stream : TokenStream}

theorem scannable_of_ofSource (h : ofSource source = .ok stream) :
    ∀ t ∈ stream.tokens, t.kind.Scannable := by
  obtain ⟨ls, hls, hstream⟩ := bind_eq_ok.mp h
  cases hstream
  intro t ht
  obtain rfl | ⟨l, hl, -, htoken | ⟨-, -, hsemicolon⟩⟩ := origin_of_mem_insertSemicolons ht
  · trivial
  · exact Lexeme.scannable_of_token? ((Lexeme.tiling_of_scan hls).isText hl) htoken
  · rw [hsemicolon]
    trivial

theorem closed_of_ofSource (h : ofSource source = .ok stream) :
    TokenKind.Closed false (stream.tokens.map (·.kind)) := by
  obtain ⟨ls, -, hstream⟩ := bind_eq_ok.mp h
  cases hstream
  exact closed_insertSemicolons _ _ _

/-- The tokens of a source, written on one line, have the same tokens again, whether or not a blank
stands behind the last of them. -/
theorem ofSource_line (h : ofSource source = .ok stream) {ending : String}
    (hending : ending = "" ∨ ending = " ") :
    ∃ again, ofSource (TokenKind.line (stream.tokens.map (·.kind)) ++ ending).toList = .ok again ∧
      again.tokens.map (·.kind) = stream.tokens.map (·.kind) := by
  have hscannable : ∀ kind ∈ stream.tokens.map (·.kind), kind.Scannable :=
    List.forall_mem_map.mpr (scannable_of_ofSource h)
  exact exists_stream_of_line hscannable (closed_of_ofSource h) hending

theorem ofSource_line_of_comment :
    ∃ stream, ofSource "x := 0x1F /* a\n */ + \x60b\x60\ny++".toList = .ok stream ∧
      TokenKind.line (stream.tokens.map (·.kind)) = "x := 0x1F ; + \x22\x22 ; y ++ ;" ∧
      ∃ again, ofSource "x := 0x1F ; + \x22\x22 ; y ++ ;".toList = .ok again ∧
        again.tokens.map (·.kind) = stream.tokens.map (·.kind) := by
  let stream : TokenStream :=
    ⟨[⟨.ident "x", ⟨1, 1⟩⟩, ⟨.operator .define, ⟨1, 3⟩⟩, ⟨.number "0x1F", ⟨1, 6⟩⟩,
      ⟨.semicolon, ⟨1, 11⟩⟩, ⟨.operator .add, ⟨2, 5⟩⟩, ⟨.literal, ⟨2, 7⟩⟩, ⟨.semicolon, ⟨2, 10⟩⟩,
      ⟨.ident "y", ⟨3, 1⟩⟩, ⟨.operator .increment, ⟨3, 2⟩⟩, ⟨.semicolon, ⟨3, 4⟩⟩], ⟨3, 4⟩⟩
  have hstream : ofSource "x := 0x1F /* a\n */ + \x60b\x60\ny++".toList = .ok stream := by
    decide +kernel
  have hline : TokenKind.line (stream.tokens.map (·.kind)) = "x := 0x1F ; + \x22\x22 ; y ++ ;" := by
    decide +kernel
  have hagain := ofSource_line hstream (.inl rfl)
  rw [hline] at hagain
  exact ⟨stream, hstream, hline, hagain⟩

end TokenStream

end FieldOrder.Source
