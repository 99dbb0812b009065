import FieldOrder.Proofs.Source.Scanning
import FieldOrder.Shape

/-! The text of a shape as lexemes. A shape is writable if its text names only what the source
language has: resolved types, identifiers for field names, lengths of 64 bits and fields in their
order. Its text is then scanned piece by piece, up to anything that does not go on like an
identifier. -/
namespace FieldOrder

open Source

namespace Source.Piece

def token? (a : Piece) : Option TokenKind := Lexeme.token? ⟨a.kind, a.text, .start⟩

@[simp] theorem joined_nil : joined [] = [] := rfl

@[simp] theorem joined_cons (a : Piece) (ps : List Piece) :
    joined (a :: ps) = a.text ++ joined ps :=
  List.flatMap_cons

@[simp] theorem joined_append (ps qs : List Piece) : joined (ps ++ qs) = joined ps ++ joined qs :=
  List.flatMap_append

@[simp] theorem text_word (name : String) : (word name).text = name.toList := rfl

@[simp] theorem text_number (n : Nat) : (number n).text = n.repr.toList := rfl

@[simp] theorem text_operator (op : Operator) : (operator op).text = op.text.toList := rfl

@[simp] theorem text_semicolon : semicolon.text = [';'] := rfl

@[simp] theorem text_blank : blank.text = [' '] := rfl

@[simp] theorem token?_word (name : String) : (word name).token? = some (.ident name) := by
  simp [token?, Lexeme.token?, word]

@[simp] theorem token?_number (n : Nat) : (number n).token? = some (.number n.repr) := by
  simp [token?, Lexeme.token?, number, -Nat.toList_repr]

@[simp] theorem token?_operator (op : Operator) : (operator op).token? = some (.operator op) := rfl

@[simp] theorem token?_semicolon : semicolon.token? = some .semicolon := rfl

@[simp] theorem token?_blank : blank.token? = none := rfl

end Source.Piece

namespace Shape

mutual

def Writable : Shape → Prop
  | scalar _ | string | slice | pointer | interface => True
  | array elem length => elem.Writable ∧ length < 2 ^ 64
  | struct fields => FieldsWritable 0 fields
  | unresolved _ => False

def FieldsWritable (i : Nat) : List (Field Shape) → Prop
  | [] => True
  | f :: fs => FieldWritable i f ∧ FieldsWritable (i + 1) fs

def FieldWritable (i : Nat) : Field Shape → Prop
  | ⟨name, type, index⟩ => Rule.identifier.Matches name.toList ∧ type.Writable ∧ index = i

end

mutual

def pieces : Shape → List Piece
  | scalar k => [.word k.text]
  | string => [.word "string"]
  | array elem length =>
    .operator .leftBracket :: .number length :: .operator .rightBracket :: elem.pieces
  | slice => [.operator .leftBracket, .operator .rightBracket, .word "_"]
  | pointer => [.operator .star, .word "_"]
  | interface => [.word "interface", .operator .leftBrace, .operator .rightBrace]
  | struct fields =>
    .word "struct" :: .operator .leftBrace :: (fieldsPieces fields ++ [.operator .rightBrace])
  | unresolved _ => []

def fieldsPieces : List (Field Shape) → List Piece
  | [] => []
  | f :: fs => fieldPieces f ++ morePieces fs

def morePieces : List (Field Shape) → List Piece
  | [] => []
  | f :: fs => .semicolon :: .blank :: (fieldPieces f ++ morePieces fs)

def fieldPieces : Field Shape → List Piece
  | ⟨name, type, _⟩ => .word name :: .blank :: type.pieces

end

mutual

theorem joined_pieces (t : Shape) (h : t.Writable) : Piece.joined t.pieces = t.text.toList := by
  cases t with
  | array elem length => simp [pieces, text, Operator.text, joined_pieces elem h.1]
  | struct fields => simp [pieces, text, Operator.text, joined_fieldsPieces fields h]
  | unresolved name => exact h.elim
  | _ => simp [pieces, text, Operator.text]

theorem joined_fieldsPieces {i : Nat} (fs : List (Field Shape)) (h : FieldsWritable i fs) :
    Piece.joined (fieldsPieces fs) = (fieldsText fs).toList := by
  cases fs with
  | nil => rfl
  | cons f fs =>
    simp [fieldsPieces, fieldsText, joined_fieldPieces f h.1, joined_morePieces fs h.2]

theorem joined_morePieces {i : Nat} (fs : List (Field Shape)) (h : FieldsWritable i fs) :
    Piece.joined (morePieces fs) = (moreText fs).toList := by
  cases fs with
  | nil => rfl
  | cons f fs =>
    simp [morePieces, moreText, joined_fieldPieces f h.1, joined_morePieces fs h.2]

theorem joined_fieldPieces {i : Nat} (f : Field Shape) (h : FieldWritable i f) :
    Piece.joined (fieldPieces f) = (fieldText f).toList := by
  obtain ⟨name, type, index⟩ := f
  simp [fieldPieces, fieldText, joined_pieces type h.2.1]

end

def Ends (ps : List Piece) : Prop := ∀ c ∈ (Piece.joined ps).head?, Rule.continuesIdent c = false

theorem ends_cons {c : Char} (hc : Rule.continuesIdent c = false) (v : List Char) :
    ∀ d ∈ (c :: v).head?, Rule.continuesIdent d = false := by
  intro d hd
  cases hd
  exact hc

theorem matches_scalar (k : Scalar) : Rule.identifier.Matches k.text.toList := by
  cases k with
  | int w | uint w => cases w <;> decide
  | _ => decide

theorem head_word (name : String) (h : Rule.identifier.Matches name.toList) (v : List Char) :
    ∀ c ∈ (name.toList ++ v).head?, Rule.isBlank c = false := by
  obtain ⟨c, ds, hname⟩ := Rule.exists_cons_of_identifier h
  rw [hname, Rule.matches_identifier] at h
  rw [hname]
  intro d hd
  cases hd
  exact Rule.isBlank_of_startsIdent h.1

theorem head_pieces (t : Shape) (h : t.Writable) (ps : List Piece) :
    ∀ c ∈ (Piece.joined (t.pieces ++ ps)).head?, Rule.isBlank c = false := by
  cases t with
  | scalar k => exact head_word _ (matches_scalar k) _
  | string => exact head_word "string" (by decide) _
  | interface => exact head_word "interface" (by decide) _
  | struct fields => exact head_word "struct" (by decide) _
  | array elem length | slice | pointer =>
    intro c hc
    cases hc
    rfl
  | unresolved name => exact h.elim

mutual

theorem split_pieces (t : Shape) (h : t.Writable) {ps : List Piece} (hps : Piece.Split ps)
    (he : Ends ps) : Piece.Split (t.pieces ++ ps) := by
  cases t with
  | scalar k => exact ⟨Piece.taken_word (matches_scalar k) he, hps⟩
  | string => exact ⟨Piece.taken_word (by decide) he, hps⟩
  | array elem length =>
    exact ⟨Piece.taken_bracket _ (by decide), Piece.taken_number _ _, Piece.taken_bracket _
      (by decide), split_pieces elem h.1 hps he⟩
  | slice =>
    exact ⟨Piece.taken_bracket _ (by decide), Piece.taken_bracket _ (by decide),
      Piece.taken_word (by decide) he, hps⟩
  | pointer => exact ⟨Piece.taken_star _, Piece.taken_word (by decide) he, hps⟩
  | interface =>
    exact ⟨Piece.taken_word (by decide) (ends_cons rfl _), Piece.taken_bracket _ (by decide),
      Piece.taken_bracket _ (by decide), hps⟩
  | struct fields =>
    have hbrace : Piece.Split (.operator .rightBrace :: ps) :=
      ⟨Piece.taken_bracket _ (by decide), hps⟩
    have hfields := split_fieldsPieces fields h hbrace (ends_cons rfl _)
    rw [pieces, List.cons_append, List.cons_append, List.append_assoc]
    exact ⟨Piece.taken_word (by decide) (ends_cons rfl _), Piece.taken_bracket _ (by decide),
      hfields⟩
  | unresolved name => exact h.elim

theorem split_fieldsPieces {i : Nat} (fs : List (Field Shape)) (h : FieldsWritable i fs)
    {ps : List Piece} (hps : Piece.Split ps) (he : Ends ps) :
    Piece.Split (fieldsPieces fs ++ ps) := by
  cases fs with
  | nil => exact hps
  | cons f fs =>
    obtain ⟨hmore, hends⟩ := split_morePieces fs h.2 hps he
    rw [fieldsPieces, List.append_assoc]
    exact split_fieldPieces f h.1 hmore hends

theorem split_morePieces {i : Nat} (fs : List (Field Shape)) (h : FieldsWritable i fs)
    {ps : List Piece} (hps : Piece.Split ps) (he : Ends ps) :
    Piece.Split (morePieces fs ++ ps) ∧ Ends (morePieces fs ++ ps) := by
  cases fs with
  | nil => exact ⟨hps, he⟩
  | cons f fs =>
    obtain ⟨hmore, hends⟩ := split_morePieces fs h.2 hps he
    have hf := split_fieldPieces f h.1 hmore hends
    rw [morePieces, List.cons_append, List.cons_append, List.append_assoc]
    refine ⟨⟨Piece.taken_semicolon _, Piece.taken_blank ?_, hf⟩, ends_cons rfl _⟩
    obtain ⟨name, type, index⟩ := f
    exact head_word name h.1.1 _

theorem split_fieldPieces {i : Nat} (f : Field Shape) (h : FieldWritable i f)
    {ps : List Piece} (hps : Piece.Split ps) (he : Ends ps) :
    Piece.Split (fieldPieces f ++ ps) := by
  obtain ⟨name, type, index⟩ := f
  exact ⟨Piece.taken_word h.1 (ends_cons rfl _), Piece.taken_blank (head_pieces type h.2.1 ps),
    split_pieces type h.2.1 hps he⟩

end

mutual

theorem blank_of_token?_pieces (t : Shape) : ∀ a ∈ t.pieces, a.token? = none → a = .blank := by
  cases t with
  | array elem length => simpa [pieces] using blank_of_token?_pieces elem
  | struct fields =>
    simpa [pieces, or_imp, forall_and] using blank_of_token?_fieldsPieces fields
  | _ => simp [pieces]

theorem blank_of_token?_fieldsPieces (fs : List (Field Shape)) :
    ∀ a ∈ fieldsPieces fs, a.token? = none → a = .blank := by
  cases fs with
  | nil => simp [fieldsPieces]
  | cons f fs =>
    simpa [fieldsPieces, or_imp, forall_and] using
      And.intro (blank_of_token?_fieldPieces f) (blank_of_token?_morePieces fs)

theorem blank_of_token?_morePieces (fs : List (Field Shape)) :
    ∀ a ∈ morePieces fs, a.token? = none → a = .blank := by
  cases fs with
  | nil => simp [morePieces]
  | cons f fs =>
    simpa [morePieces, or_imp, forall_and] using
      And.intro (blank_of_token?_fieldPieces f) (blank_of_token?_morePieces fs)

theorem blank_of_token?_fieldPieces (f : Field Shape) :
    ∀ a ∈ fieldPieces f, a.token? = none → a = .blank := by
  obtain ⟨name, type, index⟩ := f
  simpa [fieldPieces] using blank_of_token?_pieces type

end

end Shape

/-- Where the only pieces without a token are blanks, a semicolon is put in at the end alone. -/
theorem Source.TokenStream.map_kind_insertSemicolons {ps : List Piece}
    (h : ∀ a ∈ ps, a.token? = none → a = .blank) (stop p : Position) (pending : Bool) :
    (insertSemicolons stop pending (Piece.place p (ps ++ [.operator .rightBrace]))).map (·.kind) =
      ps.filterMap Piece.token? ++ [.operator .rightBrace, .semicolon] := by
  induction ps generalizing p pending with
  | nil => rfl
  | cons a ps ih =>
    have ih := ih fun b hb => h b (by simp [hb])
    have htoken : Lexeme.token? ⟨a.kind, a.text, p⟩ = a.token? := rfl
    simp only [List.cons_append, Piece.place, insertSemicolons, htoken]
    cases ha : a.token? with
    | some k => simp [ha, ih]
    | none =>
      have hblank := h a (by simp) ha
      have hbreak : Lexeme.breaksLine ⟨a.kind, a.text, p⟩ = false := by
        rw [hblank]
        rfl
      simp [ha, hbreak, ih]

end FieldOrder
