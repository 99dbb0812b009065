import FieldOrder.Proofs.Source.Statement

/-! Which local types are visible at a struct, from the text of a file on. A text of the file is
given by its tokens, with a blank behind each of them and the semicolons written out or left to the
ends of lines. Any other text with the same tokens has the same outline. -/
namespace FieldOrder.Source

def Operator.punctuation : List Operator :=
  [star, comma, leftParen, rightParen, leftBracket, rightBracket, leftBrace, rightBrace]

theorem Piece.taken_punctuation {op : Operator} (h : op ∈ Operator.punctuation) (v : List Char) :
    (operator op).Taken (' ' :: v) := by
  simp only [Operator.punctuation, List.mem_cons, List.not_mem_nil, or_false] at h
  obtain rfl | rfl | rfl | rfl | rfl | rfl | rfl | rfl := h
  all_goals exact ⟨by simp [operator, Operator.text], by simp [operator], rfl⟩

namespace TokenKind

/-- How a token is written. Semicolons may be left to the ends of lines, and what a literal says is
lost with its token. -/
def piece (lines : Bool) : TokenKind → Piece
  | .ident name => .word name
  | .number text => ⟨.number, text.toList⟩
  | .literal => ⟨.literal, ['\x22', '\x22']⟩
  | .operator op => .operator op
  | .semicolon => if lines then .newline else .semicolon

def Plain : TokenKind → Prop
  | .ident name => Rule.identifier.Matches name.toList
  | .number text => IsNumber text
  | .operator op => op ∈ Operator.punctuation
  | .literal | .semicolon => True

theorem taken_piece {kind : TokenKind} (h : kind.Plain) (lines : Bool) (v : List Char) :
    (kind.piece lines).Taken (' ' :: v) := by
  cases kind with
  | ident name => exact Piece.taken_word h (Shape.ends_cons rfl v)
  | number text => exact IsNumber.taken h v
  | literal => exact ⟨by simp [piece], by simp [piece], rfl⟩
  | operator op => exact Piece.taken_punctuation h v
  | semicolon =>
    cases lines with
    | false => exact Piece.taken_semicolon _
    | true => exact Piece.taken_newline _

theorem head_piece {kind : TokenKind} (h : kind.Plain) (lines : Bool) (v : List Char) :
    ∀ c ∈ ((kind.piece lines).text ++ v).head?, Rule.isBlank c = false := by
  cases kind with
  | ident name => exact Shape.head_word name h v
  | number text => exact IsNumber.head_not_blank h v
  | literal =>
    intro c hc
    cases hc
    rfl
  | operator op =>
    simp only [Plain, Operator.punctuation, List.mem_cons, List.not_mem_nil, or_false] at h
    obtain rfl | rfl | rfl | rfl | rfl | rfl | rfl | rfl := h
    all_goals
      intro c hc
      cases hc
      rfl
  | semicolon =>
    cases lines
    all_goals
      intro c hc
      cases hc
      rfl

def pieces (lines : Bool) (kinds : List TokenKind) : List Piece :=
  kinds.flatMap fun kind => [kind.piece lines, .blank]

/-- Tokens that can be written, with semicolons only where a statement can end and one behind the
last statement. `pending` says that the token in front of them can end a statement. -/
def Spelled : (pending : Bool) → List TokenKind → Prop
  | pending, [] => pending = false
  | pending, kind :: kinds =>
    kind.Plain ∧ (kind = .semicolon → pending = true) ∧ Spelled kind.canEndStatement kinds

theorem split_pieces {kinds : List TokenKind} {pending : Bool} (h : Spelled pending kinds)
    (lines : Bool) : Piece.Split (pieces lines kinds) := by
  induction kinds generalizing pending with
  | nil => trivial
  | cons kind kinds ih =>
    obtain ⟨hplain, -, hrest⟩ := h
    have hblank : ∀ c ∈ (Piece.joined (pieces lines kinds)).head?, Rule.isBlank c = false := by
      cases kinds with
      | nil => simp [pieces]
      | cons next kinds => exact head_piece hrest.1 lines _
    exact ⟨taken_piece hplain lines _, Piece.taken_blank hblank, ih hrest⟩

theorem insertSemicolons_piece {kind : TokenKind} {pending : Bool}
    (hsemicolon : kind = .semicolon → pending = true) (lines : Bool) (stop p : Position)
    (ls : List Lexeme) :
    TokenStream.insertSemicolons stop pending
        (⟨(kind.piece lines).kind, (kind.piece lines).text, p⟩ :: ls) =
      ⟨kind, p⟩ :: TokenStream.insertSemicolons stop kind.canEndStatement ls := by
  cases kind with
  | ident name | number text =>
    simp [piece, Piece.word, TokenStream.insertSemicolons, Lexeme.token?]
  | literal | operator op => rfl
  | semicolon =>
    obtain rfl := hsemicolon rfl
    cases lines <;> rfl

theorem insertSemicolons_blank (stop : Position) (pending : Bool) (p : Position)
    (ls : List Lexeme) :
    TokenStream.insertSemicolons stop pending (⟨.blank, [' '], p⟩ :: ls) =
      TokenStream.insertSemicolons stop pending ls := by
  cases pending <;> rfl

theorem kinds_insertSemicolons {kinds : List TokenKind} {pending : Bool} (h : Spelled pending kinds)
    (lines : Bool) (stop p : Position) :
    (TokenStream.insertSemicolons stop pending (Piece.place p (pieces lines kinds))).map (·.kind) =
      kinds := by
  induction kinds generalizing pending p with
  | nil =>
    rw [Spelled] at h
    simp [pieces, Piece.place, TokenStream.insertSemicolons, h]
  | cons kind kinds ih =>
    obtain ⟨-, hsemicolon, hrest⟩ := h
    have hplace : Piece.place p (pieces lines (kind :: kinds)) =
        ⟨(kind.piece lines).kind, (kind.piece lines).text, p⟩ ::
          ⟨.blank, [' '], p.after (kind.piece lines).text⟩ ::
            Piece.place ((p.after (kind.piece lines).text).after [' ']) (pieces lines kinds) := rfl
    rw [hplace, insertSemicolons_piece hsemicolon, insertSemicolons_blank, List.map_cons,
      ih hrest]

theorem exists_stream {kinds : List TokenKind} (h : Spelled false kinds) (lines : Bool) :
    ∃ stream, TokenStream.ofSource (Piece.joined (pieces lines kinds)) = .ok stream ∧
      stream.tokens.map (·.kind) = kinds := by
  let stop := Position.start.after (Piece.joined (pieces lines kinds))
  refine ⟨⟨TokenStream.insertSemicolons stop false (Piece.place .start (pieces lines kinds)), stop⟩,
    ?_, kinds_insertSemicolons h lines stop .start⟩
  rw [TokenStream.ofSource, Lexeme.ofSource, Lexeme.scan_joined (split_pieces h lines)]
  rfl

section Spelled

variable {kinds : List TokenKind}

theorem spelled_word {name : String} (hname : Rule.identifier.Matches name.toList)
    (h : Spelled true kinds) (pending : Bool) : Spelled pending (.ident name :: kinds) :=
  ⟨hname, by simp, h⟩

theorem spelled_number {text : String} (hnumber : IsNumber text) (h : Spelled true kinds)
    (pending : Bool) : Spelled pending (.number text :: kinds) :=
  ⟨hnumber, by simp, h⟩

theorem spelled_operator {op : Operator} (hop : op ∈ Operator.punctuation)
    (h : Spelled (TokenKind.operator op).canEndStatement kinds) (pending : Bool) :
    Spelled pending (.operator op :: kinds) :=
  ⟨hop, by simp, h⟩

theorem spelled_rightBrace (h : Spelled true kinds) (pending : Bool) :
    Spelled pending (.operator .rightBrace :: kinds) := by
  refine spelled_operator (by decide) ?_ pending
  exact h

theorem spelled_semicolon (h : Spelled false kinds) : Spelled true (.semicolon :: kinds) :=
  ⟨trivial, fun _ => rfl, h⟩

theorem spelled_separator {α : Type} (h : ∀ pending, Spelled pending kinds) (closed : Bool)
    (after : List α) : Spelled true (separator closed after ++ kinds) := by
  unfold separator
  split
  · exact h true
  · exact spelled_semicolon (h false)

end Spelled

end TokenKind

open TokenKind

namespace TypeForm

theorem spelled_names {more : List String} (h : ∀ other ∈ more, IsName other)
    {kinds : List TokenKind} (hkinds : ∀ pending, Spelled pending kinds) (pending : Bool) :
    Spelled pending ((more.flatMap fun other => [.operator .comma, .ident other]) ++ kinds) := by
  induction more generalizing pending with
  | nil => exact hkinds pending
  | cons other more ih =>
    have ih := ih fun name hname => h name (by simp [hname])
    exact spelled_operator (by decide) (spelled_word (h other (by simp)).1 (ih true) _) pending

mutual

theorem spelled_kinds (t : TypeForm) (h : t.Writable) {kinds : List TokenKind}
    (hkinds : Spelled true kinds) (pending : Bool) : Spelled pending (t.kinds ++ kinds) := by
  cases t with
  | named name => exact spelled_word h.1 hkinds pending
  | pointer target => exact spelled_operator (by decide) (spelled_kinds target h hkinds _) pending
  | slice elem =>
    refine spelled_operator (by decide) ?_ pending
    exact spelled_operator (by decide) (spelled_kinds elem h hkinds _) _
  | interface =>
    refine spelled_word (by decide) ?_ pending
    exact spelled_operator (by decide) (spelled_rightBrace hkinds _) _
  | array text length elem =>
    refine spelled_operator (by decide) (spelled_number h.1 ?_ _) pending
    exact spelled_operator (by decide) (spelled_kinds elem h.2.2 hkinds _) _
  | struct fields closed =>
    have hfields := spelled_fieldsKinds fields h closed (spelled_rightBrace hkinds)
    rw [TypeForm.kinds, List.cons_append, List.cons_append, List.append_assoc]
    exact spelled_word (by decide) (spelled_operator (by decide) (hfields _) _) pending

theorem spelled_fieldsKinds (fs : List FieldForm) (h : FieldsWritable fs) (closed : Bool)
    {kinds : List TokenKind} (hkinds : ∀ pending, Spelled pending kinds) (pending : Bool) :
    Spelled pending (fieldsKinds closed fs ++ kinds) := by
  match fs with
  | [] => exact hkinds pending
  | f :: fs =>
    have hmore := spelled_fieldsKinds fs h.2 closed hkinds
    rw [fieldsKinds, List.append_assoc, List.append_assoc]
    exact spelled_fieldKinds f h.1 (spelled_separator hmore closed fs) pending

theorem spelled_fieldKinds (f : FieldForm) (h : FieldWritable f) {kinds : List TokenKind}
    (hkinds : Spelled true kinds) (pending : Bool) : Spelled pending (fieldKinds f ++ kinds) := by
  match f with
  | .named name more type =>
    rw [fieldKinds, List.cons_append, List.append_assoc]
    exact spelled_word h.1.1 (spelled_names h.2.1 (spelled_kinds type h.2.2 hkinds) _) pending
  | .embedded true name =>
    exact spelled_operator (by decide) (spelled_word h.1 hkinds _) pending
  | .embedded false name => exact spelled_word h.1 hkinds pending

end

end TypeForm

namespace Statement

mutual

theorem spelled_kinds (st : Statement) (h : st.Writable) {kinds : List TokenKind}
    (hkinds : Spelled true kinds) (pending : Bool) : Spelled pending (st.kinds ++ kinds) := by
  cases st with
  | type name form | var name form =>
    have hform := form.spelled_kinds h.2.1 hkinds
    exact spelled_word (by decide) (spelled_word h.1.1 (hform _) _) pending
  | block body closed =>
    have hbody := spelled_bodyKinds body h closed (spelled_rightBrace hkinds)
    rw [Statement.kinds, List.cons_append, List.append_assoc]
    exact spelled_operator (by decide) (hbody _) pending

theorem spelled_bodyKinds (body : List Statement) (h : BodyWritable body) (closed : Bool)
    {kinds : List TokenKind} (hkinds : ∀ pending, Spelled pending kinds) (pending : Bool) :
    Spelled pending (bodyKinds closed body ++ kinds) := by
  match body with
  | [] => exact hkinds pending
  | st :: body =>
    have hmore := spelled_bodyKinds body h.2 closed hkinds
    rw [bodyKinds, List.append_assoc, List.append_assoc]
    exact spelled_kinds st h.1 (spelled_separator hmore closed body) pending

end

theorem spelled_fileKinds {body : List Statement} (h : BodyWritable body) (closed : Bool) :
    Spelled false (fileKinds closed body) := by
  have hend : Spelled true [.semicolon] := spelled_semicolon rfl
  have hbody := spelled_bodyKinds body h closed (spelled_rightBrace hend)
  refine spelled_word (by decide) (spelled_word (by decide) (spelled_semicolon ?_) _) false
  refine spelled_word (by decide) (spelled_word (by decide) ?_ _) false
  refine spelled_operator (by decide) (spelled_operator (by decide) ?_ _) _
  exact spelled_operator (by decide) (hbody _) _

def fileText (lines closed : Bool) (body : List Statement) : String :=
  String.ofList (Piece.joined (TokenKind.pieces lines (fileKinds closed body)))

end Statement

/-- The file `package p`, `func f() { body }` can be written with or without line breaks. However it
is written, each struct of the body has a site. The local types there are those declared in front of
it in its own block and in the blocks around it, in this order. Inside the declaration of a type
this type comes last and stands for itself. No local type is declared in the package. -/
theorem Outline.locals_of_body {body : List Statement} (h : Statement.BodyWritable body)
    (closed : Bool) :
    (∀ lines, ∃ stream, TokenStream.ofSource (Statement.fileText lines closed body).toList =
      .ok stream ∧ stream.tokens.map (·.kind) = Statement.fileKinds closed body) ∧
    ∀ source stream, TokenStream.ofSource source.toList = .ok stream →
      stream.tokens.map (·.kind) = Statement.fileKinds closed body →
      ∃ outline, ofSource source = .ok outline ∧ outline.package = "p" ∧ outline.decls = [] ∧
        outline.sites.map Site.inScope = Statement.bodyStructs [] body := by
  constructor
  · intro lines
    rw [Statement.fileText, String.toList_ofList]
    exact TokenKind.exists_stream (Statement.spelled_fileKinds h closed) lines
  · intro source stream hsource hstream
    obtain ⟨outline, houtline, hrest⟩ := ofTokens_body h hstream
    refine ⟨outline, ?_, hrest⟩
    rw [ofSource, hsource]
    exact houtline

/-- A block that declares a name again, which stands for itself and then for the new type there, and
structs in it and behind it. -/
def Statement.shadowing : List Statement :=
  [.type "T" (.struct [.named "a" ["b"] (.named "int"), .named "next" [] (.pointer (.named "T"))]
    true), .block
      [.type "T" (.array "0x2" 2 (.named "T")),
        .var "v" (.pointer (.struct [.embedded false "T"] false)),
        .type "U" (.struct [.named "e" [] .interface,
          .named "in" [] (.struct [.named "y" [] (.slice (.named "T"))] false)] true)]
      true,
    .var "w" .interface,
    .var "z" (.slice (.struct [.named "t" [] (.named "T")] false))]

theorem Outline.locals_of_shadowing :
    Statement.BodyWritable Statement.shadowing ∧
    ∃ outline, ofSource (Statement.fileText true true Statement.shadowing) = .ok outline ∧
      outline.decls = [] ∧
      outline.sites.map (fun site => (site.inScope.name, site.inScope.locals.map (·.name))) =
        [(some "T", ["T"]), (none, ["T", "T"]), (some "U", ["T", "T", "U"]),
          (none, ["T", "T", "U"]), (none, ["T"])] := by
  have hwrite : Statement.BodyWritable Statement.shadowing := by
    simp only [Statement.shadowing, Statement.BodyWritable, Statement.Writable, TypeForm.Writable,
      TypeForm.FieldsWritable, TypeForm.FieldWritable, TypeForm.FitsDeclaration,
        TypeForm.FitsVariable]
    decide
  obtain ⟨htext, hlocals⟩ := locals_of_body hwrite true
  obtain ⟨stream, hsource, hstream⟩ := htext true
  obtain ⟨outline, houtline, -, hdecls, hsites⟩ := hlocals _ stream hsource hstream
  refine ⟨hwrite, outline, houtline, hdecls, ?_⟩
  calc outline.sites.map (fun site => (site.inScope.name, site.inScope.locals.map (·.name))) =
      (outline.sites.map Site.inScope).map fun s => (s.name, s.locals.map (·.name)) := by simp
    _ = _ := by rw [hsites]; rfl

end FieldOrder.Source
