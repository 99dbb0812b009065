import FieldOrder.Proofs.Source.Steps
import FieldOrder.Proofs.Source.TypeForm

/-! Function bodies made of local types, variables and blocks. A type is visible behind its
declaration up to the end of its block, in the blocks there too, and inside its own right-hand side.
The skim of a body finds its structs with the types that are visible by this rule. -/
namespace FieldOrder.Source

structure StructInScope where
  name : Option String
  fields : List (FieldDecl WrittenType)
  parameters : List String
  locals : List TypeDecl

def Site.inScope (site : Site) : StructInScope :=
  ⟨site.literal.name, site.literal.fields, site.scope.parameters, site.scope.locals.reverse⟩

def inScope (locals : List TypeDecl) (found : List (Option String × List (FieldDecl WrittenType))) :
    List StructInScope :=
  found.map fun (name, fields) => ⟨name, fields, [], locals⟩

namespace TypeForm

def found (name : String) : TypeForm → List (Option String × List (FieldDecl WrittenType))
  | .struct fields _ =>
    (some name, fieldsWritten fields) :: Reader.foundInside (fieldsStructs fields)
  | t => Reader.foundInside t.structs

/-- Is the type within the nesting limit as the right-hand side of a declaration? A struct that is
all of it does not count. -/
def FitsDeclaration : TypeForm → Prop
  | .struct fields _ => fieldsDepth fields ≤ nestingLimit
  | t => t.depth ≤ nestingLimit

def FitsVariable : TypeForm → Prop
  | .named _ | .interface => True
  | .pointer t | .slice t | .array _ _ t => t.FitsVariable
  | .struct fields _ => fieldsDepth fields ≤ nestingLimit

end TypeForm

/-- A statement in a function body. A block is closed if a semicolon stands behind its last
statement. -/
inductive Statement where
  | type (name : String) (form : TypeForm)
  | var (name : String) (form : TypeForm)
  | block (body : List Statement) (closed : Bool)

namespace Statement

mutual

def Writable : Statement → Prop
  | .type name form => IsName name ∧ form.Writable ∧ form.FitsDeclaration
  | .var name form => IsName name ∧ form.Writable ∧ form.FitsVariable
  | .block body _ => BodyWritable body

def BodyWritable : List Statement → Prop
  | [] => True
  | s :: body => s.Writable ∧ BodyWritable body

end

mutual

def kinds : Statement → List TokenKind
  | .type name form => .ident "type" :: .ident name :: form.kinds
  | .var name form => .ident "var" :: .ident name :: form.kinds
  | .block body closed => .operator .leftBrace :: (bodyKinds closed body ++ [.operator .rightBrace])

def bodyKinds (closed : Bool) : List Statement → List TokenKind
  | [] => []
  | s :: body => s.kinds ++ (separator closed body ++ bodyKinds closed body)

end

def declared : Statement → List TypeDecl
  | .type name form => [⟨name, false, form.written⟩]
  | .var _ _ | .block _ _ => []

mutual

def structs (visible : List TypeDecl) : Statement → List StructInScope
  | .type name form =>
    inScope (visible ++ [⟨name, false, .named none name false⟩]) (form.found name)
  | .var _ form => inScope visible (Reader.foundInside form.structs)
  | .block body _ => bodyStructs visible body

def bodyStructs (visible : List TypeDecl) : List Statement → List StructInScope
  | [] => []
  | s :: body => s.structs visible ++ bodyStructs (visible ++ s.declared) body

end

end Statement

namespace Reader

theorem startsParameters_eq_false (t : TypeForm) {ts : List Token} (hts : ts.map (·.kind) = t.kinds)
    (rest : List Token) : startsParameters (ts ++ rest) = false := by
  cases t with
  | slice elem | array text length elem =>
    simp only [TypeForm.kinds, List.map_eq_cons_iff] at hts
    obtain ⟨⟨_, p⟩, _, rfl, rfl, ⟨_, q⟩, us, rfl, rfl, -⟩ := hts
    rfl
  | named _ | pointer _ | interface | struct _ _ =>
    simp only [TypeForm.kinds, List.map_eq_cons_iff] at hts
    obtain ⟨⟨_, p⟩, us, rfl, rfl, -⟩ := hts
    rfl

theorem takes_declared (t : TypeForm) (h : t.Writable) (hfit : t.FitsDeclaration) {fuel : Nat}
    {ts rest : List Token} (hts : ts.map (·.kind) = t.kinds) (hfuel : ts.length ≤ fuel)
    (hrest : endsField rest = true) (name : String) :
    (if (ts ++ rest).head?.map (·.kind) = some (.ident "struct")
      then structType (some name) (fieldList fuel nestingLimit)
      else typeExpr fuel nestingLimit).Takes ts rest t.written (t.found name) := by
  cases t with
  | struct fields closed =>
    simp only [TypeForm.kinds, List.map_eq_cons_iff] at hts
    obtain ⟨⟨_, p⟩, _, rfl, rfl, ⟨_, q⟩, ts, rfl, rfl, hts⟩ := hts
    simp only [List.length_cons] at hfuel
    intro last
    have htakes : (fieldList fuel nestingLimit).Takes ts rest _ _ :=
      takes_formFields fields h rest hts (by omega) hfit
    obtain ⟨literals, last', hread, hfound⟩ := htakes (some (.operator .leftBrace))
    refine ⟨⟨p, some name, TypeForm.fieldsWritten fields⟩ :: literals, last', ?_, ?_⟩
    · exact structType_eq_ok hread (some name) last p q
    · rw [List.map_cons, hfound, TypeForm.found]
  | named other =>
    have hother : other ≠ "struct" := by
      rintro rfl
      exact h.2 (by decide)
    have htakes := takes_form (.named other) h hts hfuel hfit hrest
    simp only [TypeForm.kinds, List.map_eq_cons_iff] at hts
    obtain ⟨⟨_, p⟩, ts, rfl, rfl, -⟩ := hts
    rwa [if_neg (by simp [hother])]
  | pointer _ | slice _ | interface | array _ _ _ =>
    have htakes := takes_form _ h hts hfuel hfit hrest
    simp only [TypeForm.kinds, List.map_eq_cons_iff] at hts
    obtain ⟨⟨_, p⟩, ts, rfl, rfl, -⟩ := hts
    rwa [if_neg (by simp)]

theorem skipIf_semicolon {sep rest : List Token} (h : Separates sep rest)
    (last : Option TokenKind) :
    ∃ last', skipIf .semicolon ⟨last, sep ++ rest⟩ = .ok ⟨(), [], ⟨last', rest⟩⟩ := by
  obtain ⟨q, rfl⟩ | ⟨rfl, q, after, rfl⟩ := h
  · exact ⟨some .semicolon, by simp [skipIf, Except.bind]⟩
  · exact ⟨last, by simp [skipIf, Except.bind]⟩

theorem typeDecls_eq_ok (t : TypeForm) (h : t.Writable) (hfit : t.FitsDeclaration) {fuel : Nat}
    {ts sep rest : List Token} (hts : ts.map (·.kind) = t.kinds) (hfuel : ts.length ≤ fuel)
    (hsep : Separates sep rest) (name : String) (last : Option TokenKind) (p : Position) :
    ∃ literals last', typeDecls fuel ⟨last, ⟨.ident name, p⟩ :: (ts ++ (sep ++ rest))⟩ =
        .ok ⟨[⟨name, [], false, t.written, literals⟩], [], ⟨last', rest⟩⟩ ∧
      literals.map (fun l => (l.name, l.fields)) = t.found name := by
  have htakes := takes_declared t h hfit hts hfuel hsep.endsField name
  have hgeneric := startsParameters_eq_false t hts (sep ++ rest)
  obtain ⟨_, kinds, hkinds, hstart⟩ := t.kinds_eq_cons
  rw [hkinds, List.map_eq_cons_iff] at hts
  obtain ⟨⟨kind, q⟩, ts, rfl, rfl, -⟩ := hts
  simp only [List.cons_append, List.head?_cons, Option.map_some, Option.some.injEq]
    at htakes hgeneric ⊢
  generalize htype : (if kind = .ident "struct" then structType (some name)
    (fieldList fuel nestingLimit)
    else typeExpr fuel nestingLimit) = type at htakes
  obtain ⟨literals, last₁, hread, hfound⟩ := htakes (some (.ident name))
  obtain ⟨last', hskip⟩ := skipIf_semicolon hsep last₁
  have hassign : skipIf (.operator .assign)
    ⟨some (.ident name), ⟨kind, q⟩ :: (ts ++ (sep ++ rest))⟩ =
      .ok ⟨(), [], ⟨some (.ident name), ⟨kind, q⟩ :: (ts ++ (sep ++ rest))⟩⟩ := by
    have hne : kind ≠ .operator .assign := by
      intro heq
      simp [heq, Shape.StartsType] at hstart
    simp [skipIf, hne, Except.bind]
  refine ⟨literals, last', ?_, hfound⟩
  simp only [List.cons_append] at hread
  simp [typeDecls, typeSpec, ident, hgeneric, hassign, htype, hread, hskip, Except.bind]

end Reader

namespace Skim

structure Grows (s s' : Skim) (found : List StructInScope) : Prop where
  package : s'.outline.package = s.outline.package
  decls : s'.outline.decls = s.outline.decls
  sites : s'.outline.sites.map Site.inScope = s.outline.sites.map Site.inScope ++ found

theorem Grows.refl (s : Skim) : s.Grows s [] := ⟨rfl, rfl, by simp⟩

theorem Grows.trans {s s' s'' : Skim} {found more : List StructInScope} (h : s.Grows s' found)
    (h' : s'.Grows s'' more) : s.Grows s'' (found ++ more) :=
  ⟨h'.package.trans h.package, h'.decls.trans h.decls, by rw [h'.sites, h.sites, List.append_assoc]⟩

/-- Outside of generic functions, the skim of the tokens `ts` in front of `rest` adds the structs
`found` to the outline. With the blocks `before` open at first, the blocks `after` are open at the
end. -/
def Walks (before : List (List TypeDecl)) (ts rest : List Token) (after : List (List TypeDecl))
    (found : List StructInScope) : Prop :=
  ∀ (s : Skim) (fuel : Nat) (last : Option TokenKind), s.blocks = before → s.parameters = [] →
    (ts ++ rest).length ≤ fuel →
    ∃ s' fuel' last', s.Grows s' found ∧ s'.blocks = after ∧ s'.parameters = [] ∧
      rest.length ≤ fuel' ∧ run fuel s ⟨last, ts ++ rest⟩ = run fuel' s' ⟨last', rest⟩

variable {before between after : List (List TypeDecl)} {ts us rest : List Token}
  {found more : List StructInScope}

theorem Walks.nil (blocks : List (List TypeDecl)) (rest : List Token) :
    Walks blocks [] rest blocks [] :=
  fun s fuel last hblocks hparameters hfuel =>
    ⟨s, fuel, last, .refl s, hblocks, hparameters, hfuel, rfl⟩

theorem Walks.append (h : Walks before ts (us ++ rest) between found)
    (h' : Walks between us rest after more) :
    Walks before (ts ++ us) rest after (found ++ more) := by
  intro s fuel last hblocks hparameters hfuel
  rw [List.append_assoc] at hfuel ⊢
  obtain ⟨s₁, fuel₁, last₁, hgrows₁, hblocks₁, hparameters₁, hfuel₁, hrun₁⟩ :=
    h s fuel last hblocks hparameters hfuel
  obtain ⟨s₂, fuel₂, last₂, hgrows₂, hblocks₂, hparameters₂, hfuel₂, hrun₂⟩ :=
    h' s₁ fuel₁ last₁ hblocks₁ hparameters₁ hfuel₁
  exact ⟨s₂, fuel₂, last₂, hgrows₁.trans hgrows₂, hblocks₂, hparameters₂, hfuel₂, hrun₁.trans hrun₂⟩

theorem walks_of_step {t : Token}
    (h : ∀ (s : Skim) (fuel : Nat) (last : Option TokenKind), s.blocks = before →
      s.parameters = [] → ts.length < fuel → ∃ s' last', s.step fuel ⟨last, t :: (ts ++ rest)⟩ =
      .ok (s', ⟨last', rest⟩) ∧
        s.Grows s' found ∧ s'.blocks = after ∧ s'.parameters = []) :
    Walks before (t :: ts) rest after found := by
  intro s fuel last hblocks hparameters hfuel
  simp only [List.cons_append, List.length_cons, List.length_append] at hfuel
  obtain ⟨fuel, rfl⟩ : ∃ n, fuel = n + 1 := ⟨fuel - 1, by omega⟩
  obtain ⟨s', last', hstep, hgrows, hblocks', hparameters'⟩ :=
    h s (fuel + 1) last hblocks hparameters (by omega)
  refine ⟨s', fuel, last', hgrows, hblocks', hparameters', by omega, ?_⟩
  simp [run, hstep, bind, Except.bind]

def Passive : TokenKind → Prop
  | .ident name => name ∉ ["package", "type", "struct", "func", "var", "const", "import"]
  | .operator op => op ≠ .leftBrace ∧ op ≠ .rightBrace
  | .number _ | .literal | .semicolon => True

theorem passive_of_isName {name : String} (h : IsName name) : Passive (.ident name) := by
  have hwords : ∀ word ∈ ["package", "type", "struct", "func", "var", "const", "import"],
      word ∈ keywords := by decide
  exact fun hmem => h.2 (hwords name hmem)

theorem step_passive {t : Token} (ht : Passive t.kind) (s : Skim) (fuel : Nat)
    (last : Option TokenKind) (ts : List Token) :
    s.step fuel ⟨last, t :: ts⟩ = .ok (s, ⟨some t.kind, ts⟩) := by
  obtain ⟨kind, p⟩ := t
  cases kind with
  | ident name =>
    simp only [Passive, List.mem_cons, List.not_mem_nil, or_false, not_or] at ht
    simp [step, Cursor.skip, ht]
  | operator op =>
    simp only [Passive] at ht
    simp [step, Cursor.skip, ht]
  | number _ | literal | semicolon => rfl

theorem walks_tokens (hts : ∀ t ∈ ts, Passive t.kind) (blocks : List (List TypeDecl))
    (rest : List Token) : Walks blocks ts rest blocks [] := by
  induction ts with
  | nil => exact .nil blocks rest
  | cons t ts ih =>
    have hstep : Walks blocks [t] (ts ++ rest) blocks [] :=
      walks_of_step fun s fuel last hblocks hparameters _ =>
        ⟨s, some t.kind, step_passive (hts t (by simp)) s fuel last _, .refl s, hblocks,
          hparameters⟩
    exact hstep.append (ih fun u hu => hts u (by simp [hu]))

theorem walks_var {blocks : List (List TypeDecl)} (hopen : blocks ≠ []) (p : Position)
    (rest : List Token) : Walks blocks [⟨.ident "var", p⟩] rest blocks [] := by
  refine walks_of_step fun s fuel last hblocks hparameters _ => ?_
  refine ⟨s, some (.ident "var"), ?_, .refl s, hblocks, hparameters⟩
  simp [step, Cursor.skip, hblocks, hopen]

theorem walks_openBlock (blocks : List (List TypeDecl)) (p : Position) (rest : List Token) :
    Walks blocks [⟨.operator .leftBrace, p⟩] rest ([] :: blocks) [] :=
  walks_of_step fun s _ _ hblocks hparameters _ =>
    ⟨s.openBlock, some (.operator .leftBrace), rfl, ⟨rfl, rfl, by simp [openBlock]⟩,
      by simp [openBlock, hblocks], hparameters⟩

theorem walks_closeBlock (block : List TypeDecl) (outer : List (List TypeDecl)) (p : Position)
    (rest : List Token) : Walks (block :: outer) [⟨.operator .rightBrace, p⟩] rest outer [] := by
  refine walks_of_step fun s fuel last hblocks hparameters _ => ?_
  cases outer with
  | nil =>
    refine ⟨{ s with blocks := [], parameters := [] }, some (.operator .rightBrace), ?_,
      ⟨rfl, rfl, by simp⟩, rfl, rfl⟩
    simp [step, closeBlock?, hblocks, Cursor.skip]
  | cons next outer =>
    refine ⟨{ s with blocks := next :: outer }, some (.operator .rightBrace), ?_,
      ⟨rfl, rfl, by simp⟩, rfl, hparameters⟩
    simp [step, closeBlock?, hblocks, Cursor.skip]

theorem map_inScope {literals : List StructLiteral}
    {found : List (Option String × List (FieldDecl WrittenType))}
    (h : literals.map (fun l => (l.name, l.fields)) = found) (locals : List TypeDecl) :
    (literals.map (Site.mk · ⟨[], locals⟩)).map Site.inScope = inScope locals.reverse found := by
  simp [Site.inScope, inScope, ← h]

theorem walks_struct (fields : List FieldForm) {closed : Bool}
    (h : (TypeForm.struct fields closed).Writable)
    (hfit : (TypeForm.struct fields closed).FitsVariable)
    (hts : ts.map (·.kind) = (TypeForm.struct fields closed).kinds) (blocks : List (List TypeDecl))
    (rest : List Token) :
    Walks blocks ts rest blocks
      (inScope blocks.flatten.reverse
        (Reader.foundInside (TypeForm.struct fields closed).structs)) := by
  simp only [TypeForm.kinds, List.map_eq_cons_iff] at hts
  obtain ⟨⟨_, p⟩, _, rfl, rfl, ⟨_, q⟩, ts, rfl, rfl, hts⟩ := hts
  refine walks_of_step fun s fuel last hblocks hparameters hfuel => ?_
  simp only [List.length_cons] at hfuel
  have htakes : (Reader.fieldList fuel nestingLimit).Takes ts rest _ _ :=
    Reader.takes_formFields fields h rest hts (by omega) hfit
  obtain ⟨literals, last', hread, hfound⟩ := htakes (some (.operator .leftBrace))
  have hstruct := Reader.structType_eq_ok hread none last p q
  have hscope : s.scope = ⟨[], blocks.flatten⟩ := by rw [scope, hblocks, hparameters]
  refine ⟨s.addSites (⟨p, none, TypeForm.fieldsWritten fields⟩ :: literals) s.scope, last', ?_,
    ⟨rfl, rfl, ?_⟩, hblocks, hparameters⟩
  · simp [step, hstruct, bind, Except.bind]
  · rw [addSites, List.map_append, hscope, map_inScope (by rw [List.map_cons, hfound])
      blocks.flatten]
    rfl

/-- The type of a variable. The braces of an empty interface open and close a block. -/
theorem walks_variable (t : TypeForm) (h : t.Writable) (hfit : t.FitsVariable) {ts : List Token}
    (hts : ts.map (·.kind) = t.kinds) (blocks : List (List TypeDecl)) (rest : List Token) :
    Walks blocks ts rest blocks
      (inScope blocks.flatten.reverse (Reader.foundInside t.structs)) := by
  cases t with
  | named name =>
    simp only [TypeForm.kinds, List.map_eq_cons_iff, List.map_eq_nil_iff] at hts
    obtain ⟨⟨_, p⟩, _, rfl, rfl, rfl⟩ := hts
    exact walks_tokens (by simpa using passive_of_isName h) blocks rest
  | pointer target =>
    simp only [TypeForm.kinds, List.map_eq_cons_iff] at hts
    obtain ⟨⟨_, p⟩, ts, rfl, rfl, hts⟩ := hts
    have hstar : Walks blocks [⟨.operator .star, p⟩] (ts ++ rest) blocks [] :=
      walks_tokens (by simp [Passive]) blocks _
    exact hstar.append (walks_variable target h hfit hts blocks rest)
  | slice elem =>
    simp only [TypeForm.kinds, List.map_eq_cons_iff] at hts
    obtain ⟨⟨_, p⟩, _, rfl, rfl, ⟨_, q⟩, ts, rfl, rfl, hts⟩ := hts
    have hbrackets : Walks blocks [⟨.operator .leftBracket, p⟩, ⟨.operator .rightBracket, q⟩]
        (ts ++ rest) blocks [] := walks_tokens (by simp [Passive]) blocks _
    exact hbrackets.append (walks_variable elem h hfit hts blocks rest)
  | interface =>
    simp only [TypeForm.kinds, List.map_eq_cons_iff, List.map_eq_nil_iff] at hts
    obtain ⟨⟨_, p⟩, _, rfl, rfl, ⟨_, q⟩, _, rfl, rfl, ⟨_, r⟩, _, rfl, rfl, rfl⟩ := hts
    have hword : Walks blocks [⟨.ident "interface", p⟩]
        ([⟨.operator .leftBrace, q⟩, ⟨.operator .rightBrace, r⟩] ++ rest) blocks [] :=
      walks_tokens (by simp [Passive]) blocks _
    have hbraces : Walks blocks ([⟨.operator .leftBrace, q⟩] ++ [⟨.operator .rightBrace, r⟩]) rest
        blocks [] := (walks_openBlock blocks q _).append (walks_closeBlock [] blocks r rest)
    exact hword.append hbraces
  | array text length elem =>
    simp only [TypeForm.kinds, List.map_eq_cons_iff] at hts
    obtain ⟨⟨_, p⟩, _, rfl, rfl, ⟨_, q⟩, _, rfl, rfl, ⟨_, r⟩, ts, rfl, rfl, hts⟩ := hts
    have hbrackets : Walks blocks [⟨.operator .leftBracket, p⟩, ⟨.number text, q⟩,
        ⟨.operator .rightBracket, r⟩] (ts ++ rest) blocks [] :=
          walks_tokens (by simp [Passive]) blocks _
    exact hbrackets.append (walks_variable elem h.2.2 hfit hts blocks rest)
  | struct fields closed => exact walks_struct fields h hfit hts blocks rest

theorem walks_type (t : TypeForm) (h : t.Writable) (hfit : t.FitsDeclaration) {ts sep : List Token}
    (hts : ts.map (·.kind) = t.kinds) (hsep : Reader.Separates sep rest) (block : List TypeDecl)
    (outer : List (List TypeDecl)) (name : String) (p q : Position) :
    Walks (block :: outer) (⟨.ident "type", p⟩ :: ⟨.ident name, q⟩ :: (ts ++ sep)) rest
      ((⟨name, false, t.written⟩ :: block) :: outer)
      (inScope ((block :: outer).flatten.reverse ++ [⟨name, false, .named none name false⟩])
        (t.found name)) := by
  refine walks_of_step fun s fuel last hblocks hparameters hfuel => ?_
  simp only [List.length_cons, List.length_append] at hfuel
  have htokens : ts.length ≤ fuel := by omega
  obtain ⟨literals, last', hread, hfound⟩ :=
    Reader.typeDecls_eq_ok t h hfit hts htokens hsep name (some (.ident "type")) q
  have hscope : s.specScope ⟨name, [], false, t.written, literals⟩ =
      ⟨[], ⟨name, false, .named none name false⟩ :: (block :: outer).flatten⟩ := by
    simp [specScope, hblocks, hparameters, TypeSpec.itself]
  refine ⟨s.declare ⟨name, [], false, t.written, literals⟩, last', ?_, ⟨?_, ?_, ?_⟩, ?_, ?_⟩
  · simp [step, Cursor.skip, hread, bind, Except.bind]
  · simp [declare, addDecl, addSites, hblocks]
  · simp [declare, addDecl, addSites, hblocks]
  · rw [sites_declare, List.map_append, hscope, map_inScope hfound, List.reverse_cons]
  · simp [declare, addDecl, addSites, hblocks, TypeSpec.decl]
  · rw [parameters_declare, hparameters]

theorem walks_separator (hsep : Reader.Separates ts rest) (blocks : List (List TypeDecl)) :
    Walks blocks ts rest blocks [] := by
  obtain ⟨q, rfl⟩ | ⟨rfl, -⟩ := hsep
  · exact walks_tokens (by simp [Passive]) blocks rest
  · exact .nil blocks rest

mutual

/-- A statement adds what it declares to the innermost block. The visible types are those of the
open blocks, oldest first. -/
theorem walks_statement (st : Statement) (h : st.Writable) {ts sep rest : List Token}
    (hts : ts.map (·.kind) = st.kinds) (hsep : Reader.Separates sep rest) (block : List TypeDecl)
    (outer : List (List TypeDecl)) :
    Walks (block :: outer) (ts ++ sep) rest ((st.declared.reverse ++ block) :: outer)
      (st.structs (block :: outer).flatten.reverse) := by
  cases st with
  | type name form =>
    simp only [Statement.kinds, List.map_eq_cons_iff] at hts
    obtain ⟨⟨_, p⟩, _, rfl, rfl, ⟨_, q⟩, ts, rfl, rfl, hts⟩ := hts
    exact walks_type form h.2.1 h.2.2 hts hsep block outer name p q
  | var name form =>
    simp only [Statement.kinds, List.map_eq_cons_iff] at hts
    obtain ⟨⟨_, p⟩, _, rfl, rfl, ⟨_, q⟩, ts, rfl, rfl, hts⟩ := hts
    have hname : Walks (block :: outer) [⟨.ident name, q⟩] (ts ++ sep ++ rest)
      (block :: outer) [] :=
      walks_tokens (by simpa using passive_of_isName h.1) _ _
    have htype := (walks_variable form h.2.1 h.2.2 hts (block :: outer) _).append
      (walks_separator hsep (block :: outer))
    rw [List.append_nil] at htype
    exact (walks_var (by simp) p _).append (hname.append htype)
  | block body closed =>
    simp only [Statement.kinds, List.map_eq_cons_iff] at hts
    obtain ⟨⟨_, p⟩, us, rfl, rfl, hus⟩ := hts
    obtain ⟨ts, vs, rfl, hts, hvs⟩ := List.map_eq_append_iff.mp hus
    simp only [List.map_eq_cons_iff, List.map_eq_nil_iff] at hvs
    obtain ⟨⟨_, q⟩, _, rfl, rfl, rfl⟩ := hvs
    -- The block starts empty, so that the same types are visible at its start as in front of it.
    have hbody := walks_body body h hts q (sep ++ rest) [] (block :: outer)
    have hclose := (walks_closeBlock ((body.flatMap Statement.declared).reverse ++ [])
      (block :: outer)
      q (sep ++ rest)).append (walks_separator hsep (block :: outer))
    have hwalk := (walks_openBlock (block :: outer) p _).append (hbody.append hclose)
    simpa [Statement.structs, Statement.declared] using hwalk

theorem walks_body (body : List Statement) (h : Statement.BodyWritable body) {closed : Bool}
    {ts : List Token} (hts : ts.map (·.kind) = Statement.bodyKinds closed body) (q : Position)
    (after : List Token) (block : List TypeDecl) (outer : List (List TypeDecl)) :
    Walks (block :: outer) ts (⟨.operator .rightBrace, q⟩ :: after)
      (((body.flatMap Statement.declared).reverse ++ block) :: outer)
      (Statement.bodyStructs (block :: outer).flatten.reverse body) := by
  match body with
  | [] =>
    simp only [Statement.bodyKinds, List.map_eq_nil_iff] at hts
    subst hts
    exact .nil _ _
  | st :: body =>
    rw [Statement.bodyKinds] at hts
    obtain ⟨ts, vs, rfl, hfirst, hvs⟩ := List.map_eq_append_iff.mp hts
    obtain ⟨sep, us, rfl, hsep, hus⟩ := List.map_eq_append_iff.mp hvs
    have hbrace : body = [] → (us ++ ⟨.operator .rightBrace, q⟩ :: after).head?.map (·.kind) =
        some (.operator .rightBrace) := by
      rintro rfl
      simp only [Statement.bodyKinds, List.map_eq_nil_iff] at hus
      simp [hus]
    have hst := walks_statement st h.1 hfirst (Reader.separates hsep hbrace) block outer
    have hmore := walks_body body h.2 hus q after (st.declared.reverse ++ block) outer
    have hvisible : ((st.declared.reverse ++ block) :: outer).flatten.reverse =
        (block :: outer).flatten.reverse ++ st.declared := by simp
    have hblock : (body.flatMap Statement.declared).reverse ++ (st.declared.reverse ++ block) =
        ((st :: body).flatMap Statement.declared).reverse ++ block := by simp
    rw [hvisible, hblock] at hmore
    rw [Statement.bodyStructs, ← List.append_assoc]
    exact hst.append hmore

end

theorem walks_function {body : List Statement} (h : Statement.BodyWritable body) {closed : Bool}
    (hts : ts.map (·.kind) =
      [.ident "f", .operator .leftParen, .operator .rightParen, .operator .leftBrace] ++
        (Statement.bodyKinds closed body ++ [.operator .rightBrace, .semicolon])) :
    Walks [] ts [] [] (Statement.bodyStructs [] body) := by
  obtain ⟨us, vs, rfl, hus, hvs⟩ := List.map_eq_append_iff.mp hts
  obtain ⟨ts, ws, rfl, hinside, hws⟩ := List.map_eq_append_iff.mp hvs
  simp only [List.map_eq_cons_iff, List.map_eq_nil_iff] at hus hws
  obtain ⟨⟨_, p⟩, _, rfl, rfl, ⟨_, q⟩, _, rfl, rfl, ⟨_, r⟩, _, rfl, rfl, ⟨_, u⟩, _, rfl, rfl,
    rfl⟩ := hus
  obtain ⟨⟨_, v⟩, _, rfl, rfl, ⟨_, w⟩, _, rfl, rfl, rfl⟩ := hws
  have hsignature (rest : List Token) : Walks [] [⟨.ident "f", p⟩, ⟨.operator .leftParen, q⟩,
      ⟨.operator .rightParen, r⟩] rest [] [] := walks_tokens (by simp [Passive]) [] rest
  have hend : Walks [] [⟨.semicolon, w⟩] [] [] [] := walks_tokens (by simp [Passive]) [] []
  have hbody := (walks_body body h hinside v [⟨.semicolon, w⟩] [] []).append
    ((walks_closeBlock _ [] v [⟨.semicolon, w⟩]).append hend)
  simpa using (hsignature _).append ((walks_openBlock [] u _).append hbody)

end Skim

def Statement.fileKinds (closed : Bool) (body : List Statement) : List TokenKind :=
  [.ident "package", .ident "p", .semicolon, .ident "func"] ++
    ([.ident "f", .operator .leftParen, .operator .rightParen, .operator .leftBrace] ++
      (bodyKinds closed body ++ [.operator .rightBrace, .semicolon]))

theorem Outline.ofTokens_body {body : List Statement} (h : Statement.BodyWritable body)
    {closed : Bool} {stream : TokenStream}
    (hstream : stream.tokens.map (·.kind) = Statement.fileKinds closed body) :
    ∃ outline, ofTokens stream = .ok outline ∧ outline.package = "p" ∧ outline.decls = [] ∧
      outline.sites.map Site.inScope = Statement.bodyStructs [] body := by
  obtain ⟨tokens, stop⟩ := stream
  obtain ⟨us, ts, rfl, hus, hts⟩ := List.map_eq_append_iff.mp hstream
  have hwalk := Skim.walks_function h hts
  simp only [List.map_eq_cons_iff, List.map_eq_nil_iff] at hus
  obtain ⟨⟨_, p⟩, _, rfl, rfl, ⟨_, q⟩, _, rfl, rfl, ⟨_, r⟩, _, rfl, rfl, ⟨_, u⟩, _, rfl, rfl,
    rfl⟩ := hus
  have hheader : Reader.funcParameters ⟨some (.ident "func"), ts⟩ =
      .ok ⟨[], [], ⟨some (.ident "func"), ts⟩⟩ := by
    simp only [List.cons_append, List.map_eq_cons_iff] at hts
    obtain ⟨⟨_, p⟩, _, rfl, rfl, ⟨_, q⟩, _, rfl, rfl, -⟩ := hts
    rfl
  let s : Skim := ⟨⟨"p", [], []⟩, [], []⟩
  have hstart : Skim.run (ts.length + 4) .start ⟨none, ⟨.ident "package", p⟩ :: ⟨.ident "p", q⟩ ::
      ⟨.semicolon, r⟩ :: ⟨.ident "func", u⟩ :: ts⟩ =
      Skim.run (ts.length + 1) s ⟨some (.ident "func"), ts⟩ := by
    simp [Skim.run, Skim.step, Skim.start, Cursor.skip, Cursor.atStatement, Reader.ident, hheader,
      bind, Except.bind, s]
  obtain ⟨s', fuel', last', hgrows, -, -, -, hrun⟩ :=
    hwalk s (ts.length + 1) (some (.ident "func")) rfl rfl (by simp)
  have hend : Skim.run fuel' s' ⟨last', []⟩ = .ok s' := by simp [Skim.run]
  rw [List.append_nil, hend] at hrun
  refine ⟨s'.outline, ?_, hgrows.package, hgrows.decls, hgrows.sites⟩
  simp only [ofTokens, List.cons_append, List.nil_append, List.length_cons, Cursor.start]
  rw [hstart, hrun]

end FieldOrder.Source
