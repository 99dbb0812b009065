import FieldOrder.Proofs.Source.Steps

/-! Every struct literal of a file is found, except where the file is not looked into: in the header
of a function, in square brackets that a type or the sign of an alias follows (array lengths and
parameter lists of types), and where words stand that belong elsewhere. -/
namespace FieldOrder.Source

open Reader

/-- The place `n` tokens before the end of the file is not looked into by a reader that comes along
here. It is directly behind a dot or a closing brace, or in square brackets with a type behind them
that do not belong to a map type. If the word `map` is misused, square brackets behind it may also
be those of an array length. -/
def unread (misused : Bool) (n : Nat) : Option TokenKind → List Token → Bool
  | _, [] => false
  | last, t :: ts =>
    (ts.length + 1 == n &&
      (last == some (.operator .dot) || last == some (.operator .rightBrace))) ||
    (t.kind == .operator .leftBracket && (misused || last != some (.ident "map")) &&
      decide (n ≤ ts.length) &&
      (behindBrackets ts).any fun rest => decide (rest.length < n) && startsRightSide rest) ||
    unread misused n (some t.kind) ts

theorem unread_of_behind {misused : Bool} {n : Nat} {c d : Cursor} (h : c.Behind d)
    (hd : unread misused n d.last d.rest = true) : unread misused n c.last c.rest = true := by
  obtain rfl | ⟨before, t, hrest, hlast⟩ := h
  · exact hd
  · rw [hlast] at hd
    rw [hrest]
    generalize c.last = last
    clear hrest
    induction before generalizing last with
    | nil => simp [unread, hd]
    | cons s before ih => simp [unread, ih (some s.kind)]

theorem LiteralAt.suffix_of_cons {p : Position} {place ts : List Token} {op : Operator}
    {q : Position}
    (h : LiteralAt p place) (hplace : place <:+ ⟨.operator op, q⟩ :: ts) : place <:+ ts := by
  obtain heq | hts := List.suffix_cons_iff.mp hplace
  · obtain ⟨r, after, rfl⟩ := h
    cases heq
  · exact hts

theorem LiteralAt.length_lt {p : Position} {place ts rest : List Token} {op : Operator}
    {q : Position}
    (h : LiteralAt p place) (hplace : place <:+ ts) (hrest : ⟨.operator op, q⟩ :: rest <:+ ts)
    (hlength : rest.length < place.length) : rest.length + 1 < place.length := by
  by_contra hle
  have hcons := List.suffix_of_suffix_length_le hplace hrest (Nat.le_of_not_lt hle)
  exact absurd (h.suffix_of_cons hcons).length_le (Nat.not_le_of_lt hlength)

theorem Passes.exists_literal {mapNamed : Prop} {bound : Nat → Nat} {way : Way} {c d : Cursor}
    {literals : List StructLiteral} (h : Passes mapNamed bound way c literals d) {misused : Bool}
    (hmap : mapNamed → misused = true) {p : Position} {place : List Token} (hp : LiteralAt p place)
    (hc : place <:+ c.rest) (hd : d.rest.length < place.length) :
    (∃ l ∈ literals, l.position = p) ∨ unread misused place.length c.last c.rest = true := by
  induction h with
  | stay => exact absurd hc.length_le (Nat.not_le_of_lt hd)
  | @token bound way last t ts hallows h =>
    obtain rfl | hts := List.suffix_cons_iff.mp hc
    · obtain ⟨q, after, heq⟩ := hp
      have hlast := h ⟨p, q, after, heq⟩
      right
      simp only [unread, Bool.or_eq_true]
      exact .inl (.inl (by simpa using hlast))
    · exact absurd hts.length_le (Nat.not_le_of_lt hd)
  | @brackets bound way last q ts rest hrest hstart hname =>
    have hts := hp.suffix_of_cons hc
    have hlast : misused = true ∨ last ≠ some (.ident "map") :=
      or_iff_not_imp_right.mpr fun heq => hmap (hname (not_not.mp heq))
    right
    simp only [unread, Bool.or_eq_true]
    refine .inl (.inr ?_)
    simpa using ⟨⟨hlast, hts.length_le⟩, rest, hrest, hd, hstart⟩
  | @enclosed bound way last last' op closing q r ts rest literals hop h ih =>
    have hts := hp.suffix_of_cons hc
    exact (ih hts (hp.length_lt hts h.suffix hd)).imp_right (unread_of_behind (.token last _ ts))
  | @group bound way last last' op closing q r ts inside after literals hgroup h ih =>
    have hts := hp.suffix_of_cons hc
    exact (ih hts (hp.length_lt hts h.suffix hd)).imp_right (unread_of_behind (.token last _ ts))
  | @beyond bound way last op q ts inside after literals others d e hgroup h hstart h' hstop hlast
      ih ih' =>
    have hts := hp.suffix_of_cons hc
    have hunread {d : Cursor} (hd : Cursor.Behind ⟨some (.operator op), ts⟩ d)
        (hplace : unread misused place.length d.last d.rest = true) :
        unread misused place.length last (⟨.operator op, q⟩ :: ts) = true :=
      unread_of_behind ((Cursor.Behind.token last _ ts).trans hd) hplace
    obtain hfirst | hsecond := Nat.lt_or_ge d.rest.length place.length
    · obtain ⟨l, hl, hpos⟩ | hplace := ih hts hfirst
      · exact .inl ⟨l, List.mem_append_left _ hl, hpos⟩
      · exact .inr (hunread (.refl _) hplace)
    have hplace := List.suffix_of_suffix_length_le hts h.suffix hsecond
    obtain hsecond | hlater := Nat.lt_or_ge e.rest.length place.length
    · obtain ⟨l, hl, hpos⟩ | hplace := ih' hplace hsecond
      · exact .inl ⟨l, List.mem_append_right _ hl, hpos⟩
      · exact .inr (hunread h.behind hplace)
    · -- The token passed over in place of the closing bracket.
      have hplace := List.suffix_of_suffix_length_le hplace h'.suffix hlater
      refine .inr (hunread (h.behind.trans h'.behind) ?_)
      obtain ⟨_, _ | ⟨t, us⟩⟩ := e
      · exact absurd hplace.length_le (Nat.not_le_of_lt hd)
      · cases hlast
        obtain rfl | hus := List.suffix_cons_iff.mp hplace
        · simp [unread]
        · exact absurd hus.length_le (Nat.not_le_of_lt hd)
  | @literal bound way last last' q r r' ts rest literals name decls fuel room hread h _ _ ih =>
    obtain heq | htail := List.suffix_cons_iff.mp hc
    · obtain ⟨r, after, rfl⟩ := hp
      cases heq
      exact .inl ⟨_, List.mem_cons_self, rfl⟩
    · have hts := hp.suffix_of_cons htail
      obtain ⟨l, hl, hpos⟩ | hunread := ih hts (hp.length_lt hts h.suffix hd)
      · exact .inl ⟨l, List.mem_cons_of_mem _ hl, hpos⟩
      · refine .inr (unread_of_behind ?_ hunread)
        exact (Cursor.Behind.token last _ _).trans (.token _ _ ts)
  | @trans bound way c d e literals others h h' ih ih' =>
    obtain hin | hout := Nat.lt_or_ge d.rest.length place.length
    · exact (ih hc hin).imp_left fun ⟨l, hl, hpos⟩ => ⟨l, List.mem_append_left _ hl, hpos⟩
    · have hrest := List.suffix_of_suffix_length_le hc h.suffix hout
      obtain ⟨l, hl, hpos⟩ | hunread := ih' hrest hd
      · exact .inl ⟨l, List.mem_append_right _ hl, hpos⟩
      · exact .inr (unread_of_behind h.behind hunread)

def Skim.declared (s : Skim) : List TypeDecl := s.outline.decls ++ s.blocks.flatten

def Skim.namesMap (s : Skim) : Bool :=
  s.declared.any (·.name == "map") ||
    s.outline.sites.any fun site => site.literal.fields.any (·.name == "map")

def mapBehindBrace : List Token → Bool
  | [] => false
  | t :: ts => (t.kind == .operator .rightBrace &&
      ts.head?.map (·.kind) == some (.ident "map")) || mapBehindBrace ts

namespace Move

def readsHeader (m : Move) : Bool :=
  m.cursor.rest.head?.any fun t => t.kind == .ident "package" || t.kind == .ident "func"

def misusesMap (m : Move) : Bool := m.result.namesMap || mapBehindBrace m.cursor.rest

/-- The move passes over the place `n` tokens before the end of the file without looking into it. -/
def overlooks (n : Nat) (m : Move) : Bool :=
  decide (n ≤ m.cursor.rest.length) && decide (m.target.rest.length < n) &&
    (m.readsHeader || unread m.misusesMap n none m.cursor.rest)

theorem overlooks_eq_true {n : Nat} {m : Move} : m.overlooks n = true ↔
    (n ≤ m.cursor.rest.length ∧ m.target.rest.length < n) ∧
      (m.readsHeader = true ∨ unread m.misusesMap n none m.cursor.rest = true) := by
  simp [overlooks]

end Move

theorem mapBehindBrace_append (before : List Token) (p q : Position) (rest : List Token) :
    mapBehindBrace (before ++ ⟨.operator .rightBrace, p⟩ :: ⟨.ident "map", q⟩ :: rest) = true := by
  induction before with
  | nil => rfl
  | cons t before ih => simp [mapBehindBrace, ih]

namespace Skim

theorem declared_declare (s : Skim) (spec : TypeSpec) (decl : TypeDecl) :
    decl ∈ (s.declare spec).declared ↔ decl = spec.decl ∨ decl ∈ s.declared := by
  obtain ⟨outline, _ | ⟨block, blocks⟩, parameters⟩ := s
  · simp [declare, addDecl, addSites, declared, or_comm]
  · simp [declare, addDecl, addSites, declared, or_left_comm]

theorem declared_foldl_declare (specs : List TypeSpec) (s : Skim) (decl : TypeDecl) :
    decl ∈ (specs.foldl declare s).declared ↔ decl ∈ specs.map (·.decl) ∨ decl ∈ s.declared := by
  induction specs generalizing s with
  | nil => simp
  | cons spec specs ih => simp [ih, declared_declare, or_assoc, or_left_comm]

theorem namesMap_of_spec {specs : List TypeSpec} {s : Skim} {spec : TypeSpec} (hspec : spec ∈ specs)
    (hname : spec.name = "map") : (specs.foldl declare s).namesMap = true := by
  have hmem : spec.decl ∈ (specs.foldl declare s).declared :=
    (declared_foldl_declare specs s _).mpr (.inl (List.mem_map_of_mem hspec))
  simp only [namesMap, Bool.or_eq_true, List.any_eq_true]
  exact .inl ⟨spec.decl, hmem, by simp [TypeSpec.decl, hname]⟩

theorem namesMap_of_misused {s : Skim} {literals : List StructLiteral} {ts : List Token}
    (hliterals : literals ⊆ s.outline.sites.map (·.literal)) (h : MapMisused ts literals) :
    s.namesMap = true ∨ mapBehindBrace ts = true := by
  obtain ⟨l, hl, f, hf, hname⟩ | ⟨before, p, q, rest, rfl⟩ := h
  · obtain ⟨site, hsite, rfl⟩ := List.mem_map.mp (hliterals hl)
    left
    simp only [namesMap, Bool.or_eq_true, List.any_eq_true]
    exact .inr ⟨site, hsite, f, hf, by simp [hname]⟩
  · exact .inr (mapBehindBrace_append before p q rest)

theorem exists_site_of_passes {mapNamed : Prop} {bound : Nat → Nat} {way : Way} {s s' : Skim}
    {c c' : Cursor} {literals : List StructLiteral}
    (h : Passes mapNamed bound way ⟨none, c.rest⟩ literals c')
    (hliterals : literals ⊆ s'.outline.sites.map (·.literal))
    (hmap : mapNamed → s'.namesMap = true ∨ mapBehindBrace c.rest = true) {place : List Token}
    (hp : LiteralAt p place) (hc : place <:+ c.rest) (hd : c'.rest.length < place.length) :
    (∃ site ∈ s'.outline.sites, site.literal.position = p) ∨
      Move.overlooks place.length ⟨s, c, s', c'⟩ = true := by
  have hmisused (hnamed : mapNamed) : Move.misusesMap ⟨s, c, s', c'⟩ = true := by
    simpa [Move.misusesMap] using hmap hnamed
  obtain ⟨l, hl, rfl⟩ | hunread := h.exists_literal hmisused hp hc hd
  · obtain ⟨site, hsite, rfl⟩ := List.mem_map.mp (hliterals hl)
    exact .inl ⟨site, hsite, rfl⟩
  · exact .inr (Move.overlooks_eq_true.mpr ⟨⟨hc.length_le, hd⟩, .inr hunread⟩)

theorem Steps.exists_site {fuel : Nat} {s s' : Skim} {c c' : Cursor} (h : Steps fuel s c s' c')
    {p : Position} {place : List Token} (hp : LiteralAt p place) (hc : place <:+ c.rest)
    (hd : c'.rest.length < place.length) : (∃ site ∈ s'.outline.sites, site.literal.position = p) ∨
      Move.overlooks place.length ⟨s, c, s', c'⟩ = true := by
  -- A step that takes a single token takes no literal.
  have hsingle {t : Token} {ts : List Token} (ht : t.kind ≠ .ident "struct")
      (hplace : place <:+ t :: ts) : place <:+ ts := by
    refine (List.suffix_cons_iff.mp hplace).resolve_left fun heq => ht ?_
    obtain ⟨q, after, rfl⟩ := hp
    cases heq
    rfl
  cases h with
  | package => exact .inr (Move.overlooks_eq_true.mpr ⟨⟨hc.length_le, hd⟩, .inl rfl⟩)
  | @types last q ts a h =>
    obtain ⟨sites, hsites, hliterals, -⟩ := sites_foldl_declare a.value s
    have hsubset : a.value.flatMap (·.literals) ⊆
        (a.value.foldl declare s).outline.sites.map (·.literal) := by
      rw [hsites, List.map_append, hliterals]
      exact List.subset_append_right _ _
    have hway := (Passes.plain (c := ⟨none, _⟩) (p := q) rfl (by simp) rfl).trans
      ((meets_typeDecls fuel fuel _).yields a h).inList
    refine exists_site_of_passes hway hsubset ?_ hp hc hd
    intro hnamed
    obtain hname | hmap := hnamed
    · obtain ⟨spec, hspec, hname⟩ := List.mem_map.mp hname
      exact .inl (namesMap_of_spec hspec hname)
    · exact namesMap_of_misused hsubset (hmap.mono (List.suffix_cons _ _) (List.Subset.refl _))
  | @literal c a hstruct h =>
    obtain ⟨q, r, rest, hrest⟩ := hstruct
    have hstart : structType none (fieldList fuel nestingLimit) ⟨none, c.rest⟩ = .ok a := by
      rw [← h]
      obtain ⟨last, ts⟩ := c
      cases hrest
      rfl
    have hmeets := (readersMeet fuel fuel ⟨none, c.rest⟩).structType nestingLimit none
    have hway := (hmeets.yields a hstart).2.2 _ _ hrest
    have hsubset : a.literals ⊆ (s.addSites a.literals s.scope).outline.sites.map (·.literal) := by
      simp [addSites, Function.comp_def]
    exact exists_site_of_passes hway hsubset (namesMap_of_misused hsubset) hp hc hd
  | function => exact .inr (Move.overlooks_eq_true.mpr ⟨⟨hc.length_le, hd⟩, .inl rfl⟩)
  | clears hword =>
    refine absurd (hsingle ?_ hc).length_le (Nat.not_le_of_lt hd)
    intro heq
    cases heq
    simp at hword
  | opens => exact absurd (hsingle (by simp) hc).length_le (Nat.not_le_of_lt hd)
  | closes => exact absurd (hsingle (by simp) hc).length_le (Nat.not_le_of_lt hd)
  | @token last t ts hopens hcloses hstruct =>
    obtain rfl | hts := List.suffix_cons_iff.mp hc
    · obtain ⟨q, after, heq⟩ := hp
      exact absurd ⟨p, q, after, heq⟩ hstruct
    · exact absurd hts.length_le (Nat.not_le_of_lt hd)

theorem Runs.exists_site {s final : Skim} {c : Cursor} {ms : List Move} (h : Runs s c ms final)
    {p : Position} {place : List Token} (hp : LiteralAt p place) (hc : place <:+ c.rest) :
    (∃ site ∈ final.outline.sites, site.literal.position = p) ∨
      ∃ m ∈ ms, m.overlooks place.length = true := by
  induction h with
  | done =>
    obtain ⟨q, after, rfl⟩ := hp
    simp at hc
  | @step fuel s s' final c c' ms hstep hrun ih =>
    obtain htaken | hahead := Nat.lt_or_ge c'.rest.length place.length
    · obtain ⟨site, hsite, hpos⟩ | hover := hstep.exists_site hp hc htaken
      · exact .inl ⟨site, hrun.sites_kept.subset hsite, hpos⟩
      · exact .inr ⟨_, List.mem_cons_self, hover⟩
    · obtain hsite | ⟨m, hm, hover⟩ :=
        ih (List.suffix_of_suffix_length_le hc hstep.behind.suffix hahead)
      · exact .inl hsite
      · exact .inr ⟨m, List.mem_cons_of_mem _ hm, hover⟩

end Skim

/-- Every struct literal that no move overlooks is found. -/
theorem Outline.exists_site_of_ofTokens {stream : TokenStream} {outline : Outline}
    (h : ofTokens stream = .ok outline) {before after : List Token} {p q : Position}
    (hplace : stream.tokens = before ++ ⟨.ident "struct", p⟩ :: ⟨.operator .leftBrace, q⟩ :: after)
    (hseen : ∀ m ∈ moves stream, m.overlooks (after.length + 2) = false) :
    ∃ site ∈ outline.sites, site.literal.position = p := by
  obtain ⟨final, hrun, rfl⟩ := runs_of_ofTokens h
  have hliteral : LiteralAt p (⟨.ident "struct", p⟩ :: ⟨.operator .leftBrace, q⟩ :: after) :=
    ⟨q, after, rfl⟩
  have hsuffix : ⟨.ident "struct", p⟩ :: ⟨.operator .leftBrace, q⟩ :: after <:+ stream.tokens :=
    ⟨before, hplace.symm⟩
  refine (hrun.exists_site hliteral hsuffix).resolve_right ?_
  rintro ⟨m, hm, hover⟩
  have hnot := hseen m hm
  simp only [List.length_cons] at hover
  rw [hnot] at hover
  cases hover

namespace Outline

def structKeys : TokenStream :=
  ⟨[⟨.ident "package", ⟨1, 1⟩⟩, ⟨.ident "p", ⟨1, 9⟩⟩, ⟨.semicolon, ⟨1, 10⟩⟩,
    ⟨.ident "type", ⟨2, 1⟩⟩, ⟨.ident "A", ⟨2, 6⟩⟩, ⟨.ident "map", ⟨2, 8⟩⟩,
    ⟨.operator .leftBracket, ⟨2, 11⟩⟩, ⟨.ident "struct", ⟨2, 12⟩⟩, ⟨.operator .leftBrace, ⟨2, 18⟩⟩,
    ⟨.ident "k", ⟨2, 20⟩⟩, ⟨.ident "int", ⟨2, 22⟩⟩, ⟨.operator .rightBrace, ⟨2, 26⟩⟩,
    ⟨.operator .rightBracket, ⟨2, 27⟩⟩, ⟨.operator .leftBracket, ⟨2, 28⟩⟩, ⟨.number "4", ⟨2, 29⟩⟩,
    ⟨.operator .rightBracket, ⟨2, 30⟩⟩, ⟨.ident "struct", ⟨2, 31⟩⟩, ⟨.operator .leftBrace, ⟨2, 37⟩⟩,
    ⟨.ident "b", ⟨2, 39⟩⟩, ⟨.ident "bool", ⟨2, 41⟩⟩, ⟨.operator .rightBrace, ⟨2, 46⟩⟩,
    ⟨.semicolon, ⟨2, 47⟩⟩], ⟨3, 1⟩⟩

/-- The struct of the keys is in square brackets with a type behind them, but of a map type. -/
theorem exists_site_of_structKeys : ∃ outline, ofTokens structKeys = .ok outline ∧
    (∀ m ∈ moves structKeys, m.overlooks 15 = false) ∧
    ∃ site ∈ outline.sites, site.literal.position = ⟨2, 12⟩ := by
  have hseen : ∀ m ∈ moves structKeys, m.overlooks 15 = false := by decide +kernel
  have hplace : structKeys.tokens = structKeys.tokens.take 7 ++ ⟨.ident "struct", ⟨2, 12⟩⟩ ::
      ⟨.operator .leftBrace, ⟨2, 18⟩⟩ :: structKeys.tokens.drop 9 := rfl
  have hok : (ofTokens structKeys).isOk = true := by decide +kernel
  cases hparse : ofTokens structKeys with
  | error e =>
    rw [hparse] at hok
    cases hok
  | ok outline => exact ⟨outline, rfl, hseen, exists_site_of_ofTokens hparse hplace hseen⟩

/-- A struct in the length of an array is not found: `type A [f(struct{ b bool }{})]byte`. -/
example : (ofTokens
    ⟨[⟨.ident "type", ⟨1, 1⟩⟩, ⟨.ident "A", ⟨1, 6⟩⟩, ⟨.operator .leftBracket, ⟨1, 8⟩⟩,
      ⟨.ident "f", ⟨1, 9⟩⟩, ⟨.operator .leftParen, ⟨1, 10⟩⟩, ⟨.ident "struct", ⟨1, 11⟩⟩,
      ⟨.operator .leftBrace, ⟨1, 17⟩⟩, ⟨.ident "b", ⟨1, 19⟩⟩, ⟨.ident "bool", ⟨1, 21⟩⟩,
      ⟨.operator .rightBrace, ⟨1, 26⟩⟩, ⟨.operator .leftBrace, ⟨1, 27⟩⟩,
      ⟨.operator .rightBrace, ⟨1, 28⟩⟩, ⟨.operator .rightParen, ⟨1, 29⟩⟩,
      ⟨.operator .rightBracket, ⟨1, 30⟩⟩, ⟨.ident "byte", ⟨1, 31⟩⟩, ⟨.semicolon, ⟨1, 35⟩⟩],
      ⟨2, 1⟩⟩).toOption.map (·.sites.length) = some 0 := by decide +kernel

end Outline

end FieldOrder.Source
