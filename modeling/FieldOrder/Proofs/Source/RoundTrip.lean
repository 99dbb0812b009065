import FieldOrder.Proofs.Source.Reading
import FieldOrder.Source.Package

/-! The round trip from a shape to its text and back. A file that declares one type, by the text of
a writable struct, has this struct as its first candidate and the structs inside it as the
others. -/
namespace FieldOrder

open Source

namespace Source.Env

variable {env : Env}

theorem lookup_predeclared {name : String} {shape : Shape}
    (henv : ∀ d ∈ env.decls, env.predeclared? d.name = none)
    (h : env.predeclared? name = some shape) : env.lookup .package name = .predeclared shape := by
  have hfind : env.decls.find? (·.name == name) = none := by
    rw [List.find?_eq_none]
    intro d hd hname
    simp only [beq_iff_eq] at hname
    rw [← hname, henv d hd] at h
    cases h
  simp [lookup, Scope.package, hfind, h]

theorem predeclared?_scalar (env : Env) (k : Scalar) :
    env.predeclared? k.text = some (.scalar k) := by
  cases k with
  | int w | uint w => cases w <;> rfl
  | _ => rfl

theorem resolve_predeclared {name : String} {shape : Shape}
    (henv : ∀ d ∈ env.decls, env.predeclared? d.name = none)
    (h : env.predeclared? name = some shape) (depth : Nat) (visiting : List DeclId) :
    env.resolve (depth + 1) .package visiting (.named none name false) = shape := by
  simp [resolve, lookup_predeclared henv h]

mutual

theorem resolve_written (henv : ∀ d ∈ env.decls, env.predeclared? d.name = none) (t : Shape)
    (h : t.Writable) {depth : Nat} (hdepth : t.nesting < depth) (visiting : List DeclId) :
    env.resolve depth .package visiting t.written = t := by
  obtain ⟨depth, rfl⟩ := Nat.exists_eq_succ_of_ne_zero (Nat.ne_zero_of_lt hdepth)
  cases t with
  | scalar k => exact resolve_predeclared henv (predeclared?_scalar env k) depth visiting
  | string => exact resolve_predeclared henv rfl depth visiting
  | array elem length =>
    have ih := resolve_written henv elem h.1 (Nat.lt_of_succ_lt_succ hdepth) visiting
    rw [Shape.written, resolve, ih]
  | struct fields =>
    have ih := resolve_writtenFields henv fields h (Nat.lt_of_succ_lt_succ hdepth) visiting
    rw [Shape.written, resolve, Shape.ofFields, ih]
  | slice | pointer | interface => rfl
  | unresolved name => exact h.elim

theorem resolve_writtenFields (henv : ∀ d ∈ env.decls, env.predeclared? d.name = none) {i : Nat}
    (fs : List (Field Shape)) (h : Shape.FieldsWritable i fs) {depth : Nat}
    (hdepth : Shape.fieldsNesting fs < depth) (visiting : List DeclId) :
    (((Shape.writtenFields fs).map fun f =>
      (f.name, env.resolve depth .package visiting f.type)).zipIdx i).map
        (fun ((name, type), i) => (⟨name, type, i⟩ : Field Shape)) = fs := by
  match fs with
  | [] => rfl
  | ⟨name, type, index⟩ :: fs =>
    rw [Shape.fieldsNesting, Nat.max_lt] at hdepth
    obtain ⟨⟨-, htype, rfl⟩, hfs⟩ := h
    have iht := resolve_written henv type htype hdepth.1 visiting
    have ih := resolve_writtenFields henv fs hfs hdepth.2 visiting
    simp [Shape.writtenFields, iht, ih]

end

/-- A struct that is nested no deeper than resolution goes stands for itself. -/
theorem resolveStruct_written (henv : ∀ d ∈ env.decls, env.predeclared? d.name = none)
    {fs : List (Field Shape)} (h : Shape.FieldsWritable 0 fs)
    (hdepth : Shape.fieldsNesting fs < depthLimit) :
    env.resolveStruct .package (Shape.writtenFields fs) = .struct fs := by
  rw [resolveStruct, Shape.ofFields, resolve_writtenFields henv fs h hdepth []]

end Source.Env

namespace Shape

mutual

theorem writable_of_mem_structs (t : Shape) (h : t.Writable) :
    ∀ fs ∈ t.structs, FieldsWritable 0 fs ∧ fieldsNesting fs < t.nesting := by
  intro fs hfs
  cases t with
  | array elem length =>
    have ih := writable_of_mem_structs elem h.1 fs hfs
    exact ⟨ih.1, Nat.lt_succ_of_lt ih.2⟩
  | struct fields =>
    obtain rfl | hfs := List.mem_cons.mp hfs
    · exact ⟨h, Nat.lt_succ_self _⟩
    · have ih := writable_of_mem_fieldsStructs fields h fs hfs
      exact ⟨ih.1, Nat.lt_succ_of_lt ih.2⟩
  | _ => simp [structs] at hfs

theorem writable_of_mem_fieldsStructs {i : Nat} (fs : List (Field Shape))
    (h : FieldsWritable i fs) :
    ∀ gs ∈ fieldsStructs fs, FieldsWritable 0 gs ∧ fieldsNesting gs < fieldsNesting fs := by
  intro gs hgs
  match fs with
  | [] => cases hgs
  | ⟨name, type, index⟩ :: fs =>
    rw [fieldsNesting]
    cases List.mem_append.mp hgs with
    | inl hgs =>
      have ih := writable_of_mem_structs type h.1.2.1 gs hgs
      exact ⟨ih.1, by omega⟩
    | inr hgs =>
      have ih := writable_of_mem_fieldsStructs fs h.2 gs hgs
      exact ⟨ih.1, by omega⟩

end

def header : List Piece :=
  [.word "package", .blank, .word "p", .newline, .word "type", .blank, .word "T", .blank]

theorem split_header {ps : List Piece} (h : Piece.Split ps)
    (hps : ∀ c ∈ (Piece.joined ps).head?, Rule.isBlank c = false) : Piece.Split (header ++ ps) :=
  ⟨Piece.taken_word (by decide) (ends_cons rfl _), Piece.taken_blank (head_word "p" (by decide) _),
    Piece.taken_word (by decide) (ends_cons rfl _), Piece.taken_newline _,
    Piece.taken_word (by decide) (ends_cons rfl _), Piece.taken_blank (head_word "T" (by decide) _),
    Piece.taken_word (by decide) (ends_cons rfl _), Piece.taken_blank hps, h⟩

theorem exists_tokens {fields : List (Field Shape)} (h : FieldsWritable 0 fields) :
    ∃ ts stop, TokenStream.ofSource ("package p\ntype T " ++ (struct fields).text).toList =
      .ok ⟨⟨.ident "package", ⟨1, 1⟩⟩ :: ⟨.ident "p", ⟨1, 9⟩⟩ :: ⟨.semicolon, ⟨1, 10⟩⟩ ::
        ⟨.ident "type", ⟨2, 1⟩⟩ :: ⟨.ident "T", ⟨2, 6⟩⟩ :: ⟨.ident "struct", ⟨2, 8⟩⟩ :: ts, stop⟩ ∧
      ts.map (·.kind) =
        .operator .leftBrace :: (fieldsKinds fields ++ [.operator .rightBrace, .semicolon]) := by
  have hsplit : Piece.Split (header ++ (struct fields).pieces) := by
    have ht : Piece.Split ((struct fields).pieces ++ []) :=
      split_pieces (struct fields) h trivial (by simp [Ends])
    have hhead := head_pieces (struct fields) h []
    rw [List.append_nil] at ht hhead
    exact split_header ht hhead
  have htext : ("package p\ntype T " ++ (struct fields).text).toList =
      Piece.joined (header ++ (struct fields).pieces) := by
    have hheader : Piece.joined header = "package p\ntype T ".toList := by decide
    rw [Piece.joined_append, joined_pieces (struct fields) h, hheader, String.toList_append]
  rw [htext]
  let stop := Position.start.after (Piece.joined (header ++ (struct fields).pieces))
  refine ⟨TokenStream.insertSemicolons stop true (Piece.place ⟨2, 14⟩
    (.operator .leftBrace :: (fieldsPieces fields ++ [.operator .rightBrace]))), stop, ?_, ?_⟩
  · rw [TokenStream.ofSource, Lexeme.ofSource, Lexeme.scan_joined hsplit]
    rfl
  · have hblank : ∀ a ∈ Piece.operator .leftBrace :: fieldsPieces fields,
        a.token? = none → a = .blank := by
      simpa using blank_of_token?_fieldsPieces fields
    simpa [fieldsKinds] using
      TokenStream.map_kind_insertSemicolons hblank stop ⟨2, 14⟩ true

end Shape

namespace Source

theorem Reader.typeDecls_struct {fuel : Nat} {ts : List Token}
    {decls : List (FieldDecl WrittenType)}
    {literals : List StructLiteral} {last' : Option TokenKind} {s : Position}
    (h : fieldList fuel nestingLimit ⟨some (.operator .leftBrace), ts⟩ =
      .ok ⟨decls, literals, ⟨last', [⟨.semicolon, s⟩]⟩⟩)
    (name : String) (last : Option TokenKind) (p q r : Position) :
    typeDecls fuel ⟨last, ⟨.ident name, p⟩ :: ⟨.ident "struct", q⟩ :: ⟨.operator .leftBrace, r⟩ ::
      ts⟩ = .ok ⟨[⟨name, [], false, .struct decls, ⟨q, some name, decls⟩ :: literals⟩], [],
        ⟨some .semicolon, []⟩⟩ := by
  have hstruct := structType_eq_ok h (some name) (some (.ident name)) q r
  simp [typeDecls, typeSpec, ident, startsParameters, skipIf, hstruct, Except.bind]

theorem Outline.ofTokens_struct {ts : List Token} {decls : List (FieldDecl WrittenType)}
    {literals : List StructLiteral} {last : Option TokenKind} {p q r s t u v w stop : Position}
    (h : Reader.fieldList (ts.length + 5) nestingLimit ⟨some (.operator .leftBrace), ts⟩ =
      .ok ⟨decls, literals, ⟨last, [⟨.semicolon, s⟩]⟩⟩) (package name : String) :
    ofTokens ⟨⟨.ident "package", p⟩ :: ⟨.ident package, q⟩ :: ⟨.semicolon, r⟩ ::
        ⟨.ident "type", t⟩ :: ⟨.ident name, u⟩ :: ⟨.ident "struct", v⟩ ::
        ⟨.operator .leftBrace, w⟩ :: ts, stop⟩ =
      .ok ⟨package, [⟨name, false, .struct decls⟩],
        (⟨v, some name, decls⟩ :: literals).map (⟨·, .package⟩)⟩ := by
  have htype := Reader.typeDecls_struct h name (some (.ident "type")) u v w
  simp [ofTokens, Skim.run, Skim.step, Skim.start, Cursor.start, Cursor.skip, Reader.ident, htype,
    bind, Except.bind, Skim.declare, Skim.addSites, Skim.addDecl, Skim.specScope, TypeSpec.decl,
    Scope.package]

theorem Outline.exists_ofSource {fields : List (Field Shape)} (h : Shape.FieldsWritable 0 fields)
    (hnest : Shape.fieldsNesting fields + 2 ≤ nestingLimit) :
    ∃ literals, ofSource ("package p\ntype T " ++ (Shape.struct fields).text) =
        .ok ⟨"p", [⟨"T", false, .struct (Shape.writtenFields fields)⟩],
          (⟨⟨2, 8⟩, some "T", Shape.writtenFields fields⟩ :: literals).map (⟨·, .package⟩)⟩ ∧
      literals.map (fun l => (l.name, l.fields)) = Reader.unnamed (Shape.fieldsStructs fields) := by
  obtain ⟨ts, stop, htokens, hkinds⟩ := Shape.exists_tokens h
  obtain ⟨⟨_, w⟩, ts, rfl, rfl, hts⟩ := List.map_eq_cons_iff.mp hkinds
  have hsplit : ts.map (·.kind) =
      (Shape.fieldsKinds fields ++ [.operator .rightBrace]) ++ [.semicolon] := by simp [hts]
  obtain ⟨us, vs, rfl, hus, hvs⟩ := List.map_eq_append_iff.mp hsplit
  simp only [List.map_eq_cons_iff, List.map_eq_nil_iff] at hvs
  obtain ⟨⟨_, s⟩, _, rfl, rfl, rfl⟩ := hvs
  have hfuel : us.length ≤ (us ++ [(⟨.semicolon, s⟩ : Token)]).length + 5 := by
    simp only [List.length_append]
    omega
  obtain ⟨literals, last, hread, hfound⟩ :=
    Reader.takes_fieldList fields h [⟨.semicolon, s⟩] hus hfuel hnest (some (.operator .leftBrace))
  refine ⟨literals, ?_, hfound⟩
  rw [ofSource, htokens]
  exact ofTokens_struct hread "p" "T"

namespace Package

theorem candidates_single {path text : String} {outline : Outline}
    (h : Outline.ofSource text = .ok outline) (target : Target) :
    candidates target [⟨path, text⟩] =
      .ok (outline.sites.map fun site =>
        { shape := Env.resolveStruct ⟨outline.decls.reverse, target.intWidth⟩ site.scope
            site.literal.fields
          position := ⟨path, site.literal.position⟩
          name := site.literal.name }) := by
  have hread : SourceFile.read ⟨path, text⟩ = .ok ⟨path, outline⟩ := by simp [SourceFile.read, h]
  simp [candidates, hread, fileCandidates, decls, bind, Except.bind, pure, Except.pure]

/-- A struct that is written to a file is found there as it was, followed by the structs inside
it. -/
theorem candidates_of_struct (target : Target) (path : String) {fields : List (Field Shape)}
    (h : Shape.FieldsWritable 0 fields) (hnest : Shape.fieldsNesting fields ≤ 98) :
    ∃ nested,
      candidates target [⟨path, "package p\ntype T " ++ (Shape.struct fields).text⟩] =
        .ok ({ shape := .struct fields, position := ⟨path, ⟨2, 8⟩⟩, name := some "T" } :: nested) ∧
      nested.map (fun c => (c.shape, c.position.path, c.name)) =
        (Shape.fieldsStructs fields).map fun fs => (Shape.struct fs, path, none) := by
  have hroom : Shape.fieldsNesting fields + 2 ≤ nestingLimit := Nat.add_le_add_right hnest 2
  obtain ⟨literals, houtline, hfound⟩ := Outline.exists_ofSource h hroom
  let env : Env := ⟨[⟨"T", false, .struct (Shape.writtenFields fields)⟩], target.intWidth⟩
  have henv : ∀ d ∈ env.decls, env.predeclared? d.name = none := by
    intro d hd
    rw [List.mem_singleton.mp hd]
    rfl
  have hresolve {fs : List (Field Shape)} (hfs : Shape.FieldsWritable 0 fs)
      (hle : Shape.fieldsNesting fs ≤ Shape.fieldsNesting fields) :
      env.resolveStruct .package (Shape.writtenFields fs) = .struct fs := by
    apply Env.resolveStruct_written henv hfs
    rw [Env.depthLimit]
    omega
  refine ⟨literals.map fun l =>
    { shape := env.resolveStruct .package l.fields
      position := ⟨path, l.position⟩
      name := l.name }, ?_, ?_⟩
  · rw [candidates_single houtline target]
    simp [env, hresolve h (Nat.le_refl _)]
  · calc _ = (literals.map fun l => (l.name, l.fields)).map fun l =>
          (env.resolveStruct .package l.2, path, l.1) := by simp
      _ = (Shape.fieldsStructs fields).map fun fs =>
          (env.resolveStruct .package (Shape.writtenFields fs), path, none) := by
        simp [hfound, Reader.unnamed]
      _ = (Shape.fieldsStructs fields).map fun fs => (Shape.struct fs, path, none) := by
        apply List.map_congr_left
        intro fs hfs
        obtain ⟨hwrite, hlt⟩ := Shape.writable_of_mem_fieldsStructs fields h fs hfs
        rw [hresolve hwrite (Nat.le_of_lt hlt)]

def nestedFields : List (Field Shape) :=
  [⟨"next", .pointer, 0⟩,
    ⟨"größe", .array (.struct [⟨"struct", .slice, 0⟩, ⟨"_", .scalar (.uint .w32), 1⟩]) (2 ^ 64 - 1),
      1⟩,
    ⟨"x1", .struct [⟨"e", .interface, 0⟩], 2⟩]

theorem candidates_of_nestedFields :
    Shape.FieldsWritable 0 nestedFields ∧ Shape.fieldsNesting nestedFields ≤ 98 ∧
    ∃ nested,
      candidates Profile.amd64.target
          [⟨"a.go", "package p\ntype T " ++ (Shape.struct nestedFields).text⟩] =
        .ok ({ shape := .struct nestedFields, position := ⟨"a.go", ⟨2, 8⟩⟩, name := some "T" } ::
          nested) ∧
      nested.map (fun c => (c.shape, c.position.path, c.name)) =
        [(.struct [⟨"struct", .slice, 0⟩, ⟨"_", .scalar (.uint .w32), 1⟩], "a.go", none),
          (.struct [⟨"e", .interface, 0⟩], "a.go", none)] := by
  have hwrite : Shape.FieldsWritable 0 nestedFields :=
    ⟨⟨by decide, trivial, rfl⟩,
      ⟨by decide, ⟨⟨⟨by decide, trivial, rfl⟩, ⟨by decide, trivial, rfl⟩, trivial⟩, by decide⟩,
        rfl⟩,
      ⟨by decide, ⟨⟨by decide, trivial, rfl⟩, trivial⟩, rfl⟩, trivial⟩
  have hnest : Shape.fieldsNesting nestedFields ≤ 98 := by decide
  exact ⟨hwrite, hnest, candidates_of_struct Profile.amd64.target "a.go" hwrite hnest⟩

end Package

end Source

end FieldOrder
