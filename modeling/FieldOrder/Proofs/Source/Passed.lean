import FieldOrder.Proofs.Source.Passage

/-! The ways of readers whose results are at hand: where the word `map` may stand in them, and how
the ways of the parts of a reader make up its own. -/
namespace FieldOrder.Source

namespace Reader

variable {α β : Type} {bound : Nat → Nat} {c : Cursor}

/-- The word `map` where no type starts with it: as the name of a field, or behind a closing
brace. -/
def MapMisused (ts : List Token) (literals : List StructLiteral) : Prop :=
  (∃ l ∈ literals, ∃ f ∈ l.fields, f.name = "map") ∨
    ∃ before p q rest, ts = before ++ ⟨.operator .rightBrace, p⟩ :: ⟨.ident "map", q⟩ :: rest

theorem MapMisused.mono {ts us : List Token} {literals others : List StructLiteral}
    (h : MapMisused ts literals) (hts : ts <:+ us) (hliterals : literals ⊆ others) :
    MapMisused us others := by
  obtain ⟨l, hl, hmap⟩ | ⟨before, p, q, rest, rfl⟩ := h
  · exact .inl ⟨l, hliterals hl, hmap⟩
  · obtain ⟨pre, rfl⟩ := hts
    exact .inr ⟨pre ++ before, p, q, rest, by simp⟩

theorem MapMisused.of_skip {d : Cursor} {literals : List StructLiteral} (h : c.Further d)
    (hbrace : d.last = some (.operator .rightBrace)) (hmap : d.skip.last = some (.ident "map")) :
    MapMisused c.rest literals := by
  obtain ⟨before, ⟨kind, p⟩, hrest, hlast⟩ := h
  obtain ⟨last, _ | ⟨⟨next, q⟩, ts⟩⟩ := d
  · cases hbrace
    cases hmap
  · cases hbrace
    cases hlast
    cases hmap
    exact .inr ⟨before, p, q, ts, hrest⟩

/-- One of the names is `map`, or no type starts with the word somewhere. -/
def MapNamed (names : List String) (ts : List Token) (literals : List StructLiteral) : Prop :=
  "map" ∈ names ∨ MapMisused ts literals

theorem MapNamed.mono {names more : List String} {ts us : List Token}
    {literals others : List StructLiteral} (h : MapNamed names ts literals) (hnames : names ⊆ more)
    (hts : ts <:+ us) (hliterals : literals ⊆ others) : MapNamed more us others :=
  h.imp (hnames ·) (·.mono hts hliterals)

/-! ### The ways of results -/

def Passed (bound : Nat → Nat) (way : Way) (c : Cursor) (a : Reading α) : Prop :=
  Passes (MapMisused c.rest a.literals) bound way c a.literals a.cursor

theorem Passed.seq {way : Way} {a : Reading α} {b : Reading β} {d : Cursor}
    (ha : Passed bound way c a) (hd : Passes False bound way a.cursor [] d)
    (hb : Passed bound way d b) {γ : Type} (value : γ) :
    Passed bound way c ⟨value, a.literals ++ b.literals, b.cursor⟩ := by
  refine Passes.trans (Passes.mono ha fun hmap => ?_)
    ((hd.mono False.elim).trans (Passes.mono hb fun hmap => ?_))
  · exact hmap.mono List.suffix_rfl (List.subset_append_left _ _)
  · exact hmap.mono (hd.suffix.trans ha.suffix) (List.subset_append_right _ _)

theorem Passed.after {way : Way} {d : Cursor} {a : Reading α} (h : Passes False bound way c [] d)
    (ha : Passed bound way d a) (value : β) : Passed bound way c ⟨value, a.literals, a.cursor⟩ :=
  Passed.seq (a := ⟨(), [], c⟩) .stay h ha value

theorem Passed.enclosed {last : Option TokenKind} {op closing : Operator} {p q : Position}
    {ts rest : List Token} {a : Reading α} (hop : op.closing? = some closing)
    (ha : Passed bound .type ⟨some (.operator op), ts⟩ a)
    (hrest : a.cursor.rest = ⟨.operator closing, q⟩ :: rest) (value : β) :
    Passed bound .type ⟨last, ⟨.operator op, p⟩ :: ts⟩
      ⟨value, a.literals, ⟨some (.operator closing), rest⟩⟩ := by
  obtain ⟨_, literals, ⟨last', _⟩⟩ := a
  cases hrest
  exact Passes.enclosed hop (Passes.mono ha.inList fun hmap =>
    hmap.mono (List.suffix_cons _ _) (List.Subset.refl _))

/-- The way of a reader of types, in front of which a type must start. -/
def TypePassed (room : Nat) (c : Cursor) (a : Reading α) : Prop :=
  (∃ t ts, c.rest = t :: ts ∧ t.kind.startsType = true) ∧
    Passes (c.last = some (.ident "map") ∨ MapMisused c.rest a.literals) (fun _ => room) .type c
      a.literals a.cursor

theorem TypePassed.passed {room : Nat} {a : Reading α} (h : TypePassed room c a)
    (hbound : ∀ n, room ≤ bound n)
    (hc : c.last = some (.ident "map") → MapMisused c.rest a.literals) : Passed bound .type c a :=
  Passes.deepen (h.2.mono fun hmap => hmap.elim hc id) hbound

theorem Passed.typePassed {room : Nat} {a : Reading α} {kind : TokenKind} {p : Position}
    {ts : List Token} (h : Passed bound .type c a) (hbound : ∀ n, bound n ≤ room)
    (hc : c.rest = ⟨kind, p⟩ :: ts) (hstart : kind.startsType = true) : TypePassed room c a :=
  ⟨⟨_, _, hc, hstart⟩, Passes.deepen (Passes.mono h .inr) hbound⟩

/-- A type that starts with a word is what stands behind the word. -/
theorem Passed.word {room : Nat} {word : String} {last : Option TokenKind} {p : Position}
    {ts : List Token} {a : Reading α} (hword : word ≠ "struct")
    (ha : Passed bound .type ⟨some (.ident word), ts⟩ a) (hbound : ∀ n, bound n ≤ room)
    (value : β) :
    TypePassed room ⟨last, ⟨.ident word, p⟩ :: ts⟩ ⟨value, a.literals, a.cursor⟩ := by
  have hfirst : Passes False bound .type ⟨last, ⟨.ident word, p⟩ :: ts⟩ []
      ⟨some (.ident word), ts⟩ := .plain rfl (by simpa using hword) rfl
  exact (Passed.after hfirst ha value).typePassed hbound rfl rfl

def FieldsPassed (bound : Nat → Nat) (c : Cursor) (a : Reading (List (FieldDecl WrittenType))) :
    Prop :=
  Passes (MapNamed (a.value.map (·.name)) c.rest a.literals) bound .list c a.literals a.cursor

theorem FieldsPassed.append {a b : Reading (List (FieldDecl WrittenType))}
    (ha : FieldsPassed bound c a) (hb : FieldsPassed bound a.cursor b) :
    FieldsPassed bound c ⟨a.value ++ b.value, a.literals ++ b.literals, b.cursor⟩ := by
  refine Passes.trans (Passes.mono ha fun hmap => ?_) (Passes.mono hb fun hmap => ?_)
  · exact hmap.mono (by simp) List.suffix_rfl (List.subset_append_left _ _)
  · exact hmap.mono (by simp) ha.suffix (List.subset_append_right _ _)

def FieldsClosed (bound : Nat → Nat) (c : Cursor) (a : Reading (List (FieldDecl WrittenType))) :
    Prop :=
  ∃ last q, FieldsPassed bound c
      ⟨a.value, a.literals, ⟨last, ⟨.operator .rightBrace, q⟩ :: a.cursor.rest⟩⟩ ∧
    a.cursor.last = some (.operator .rightBrace)

/-- The fields of a struct go on or end here. -/
def FieldNext (c : Cursor) : Prop :=
  startsField c.last = true ∨ c.rest.head?.map (·.kind) = some (.operator .rightBrace)

/-- Reading went on to the end of a literal that starts within the given number of tokens and ends
further on. -/
def Overran (bound : Nat → Nat) (n : Nat) (c : Cursor) (a : Reading α) : Prop :=
  ∃ literals others d, a.literals = literals ++ others ∧
    Passes (MapMisused c.rest a.literals) bound .group c literals d ∧
    c.rest.length < d.rest.length + n ∧
    Passes (MapMisused c.rest a.literals) bound .type d others a.cursor ∧
    a.cursor.rest.length + n < c.rest.length ∧ a.cursor.last = some (.operator .rightBrace)

/-- The way of a reader that stops behind the given number of tokens, or at the end of a literal
that goes on beyond them. -/
def InsidePassed (room left : Nat) (c : Cursor) (a : Reading α) : Prop :=
  (Passed (insideBound room c left) .group c a ∧ a.cursor.rest.length + left = c.rest.length) ∨
    Overran (insideBound room c left) left c a

theorem InsidePassed.zero {room : Nat} {a : Reading α} (h : InsidePassed room 0 c a) :
    a.literals = [] ∧ a.cursor = c := by
  obtain ⟨hpassed, hlength⟩ | ⟨literals, others, d, -, hd, hstart, -⟩ := h
  · exact hpassed.eq_of_length_le hlength.ge
  · exact absurd hd.suffix.length_le (Nat.not_le_of_lt hstart)

theorem Passed.overran {n m : Nat} {a : Reading α} {b : Reading β} {γ : Type} {value : γ}
    (ha : Passed bound .group c a) (hn : c.rest.length + m = a.cursor.rest.length + n)
    (hb : Overran bound m a.cursor b) :
    Overran bound n c ⟨value, a.literals ++ b.literals, b.cursor⟩ := by
  obtain ⟨literals, others, d, hliterals, hd, hstart, hover, hstop, hlast⟩ := hb
  have hmono (hmap : MapMisused a.cursor.rest b.literals) :
      MapMisused c.rest (a.literals ++ b.literals) :=
    hmap.mono ha.suffix (List.subset_append_right _ _)
  refine ⟨a.literals ++ literals, others, d, by simp [hliterals], ?_, by omega, hover.mono hmono,
    ?_, hlast⟩
  · refine Passes.trans (Passes.mono ha fun hmap => ?_) (hd.mono hmono)
    exact hmap.mono List.suffix_rfl (List.subset_append_left _ _)
  · show b.cursor.rest.length + n < c.rest.length
    omega

theorem Overran.stop {n : Nat} {a : Reading α} (h : Overran bound n c a) :
    a.cursor.rest.length + n < c.rest.length := by
  obtain ⟨literals, others, d, -, -, -, -, hstop, -⟩ := h
  exact hstop

theorem Overran.deepen {wider : Nat → Nat} {n : Nat} {a : Reading α} (h : Overran bound n c a)
    (hle : ∀ n, bound n ≤ wider n) : Overran wider n c a := by
  obtain ⟨literals, others, d, hliterals, hd, hstart, hover, hstop⟩ := h
  exact ⟨literals, others, d, hliterals, hd.deepen hle, hstart, hover.deepen hle, hstop⟩

/-! ### Declarations -/

def SpecsPassed (way : Way) (c : Cursor) (specs : List TypeSpec) (d : Cursor) : Prop :=
  Passes (MapNamed (specs.map (·.name)) c.rest (specs.flatMap (·.literals)))
    (fun _ => nestingLimit + 1) way c (specs.flatMap (·.literals)) d

/-- The way over type declarations and over the semicolon behind them, if there is one. -/
def DeclsPassed (c : Cursor) (specs : List TypeSpec) (d : Cursor) : Prop :=
  ∃ e, SpecsPassed .type c specs e ∧
    (d = e ∨ ∃ p ts, e.rest = ⟨.semicolon, p⟩ :: ts ∧ d = ⟨some .semicolon, ts⟩)

theorem DeclsPassed.inList {specs : List TypeSpec} {d : Cursor} (h : DeclsPassed c specs d) :
    SpecsPassed .list c specs d := by
  obtain ⟨e, he, rfl | ⟨p, ts, hrest, rfl⟩⟩ := h
  · exact Passes.inList he
  · simpa [SpecsPassed] using (Passes.inList he).trans (.plain hrest (by simp) rfl)

/-- One declaration: what stands in front of its right-hand side, and the side itself. -/
theorem SpecsPassed.single {spec : TypeSpec} {d e : Cursor}
    (hd : Passes (spec.name = "map") (fun _ => nestingLimit + 1) .type c [] d)
    (hlast : d.last = some (.ident "map") → spec.name = "map")
    (he : Passes (d.last = some (.ident "map") ∨ MapMisused d.rest spec.literals)
      (fun _ => nestingLimit + 1) .type d spec.literals e) :
    SpecsPassed .type c [spec] e := by
  have hname (h : spec.name = "map") : "map" ∈ [spec].map (·.name) := by simp [h]
  have hliterals : [spec].flatMap (·.literals) = spec.literals := by simp
  rw [SpecsPassed, hliterals]
  have hside := he.mono fun hmap => hmap.imp (fun h => hname (hlast h)) fun h =>
    h.mono hd.suffix (List.Subset.refl _)
  exact (hd.mono fun h => .inl (hname h)).trans hside

theorem SpecsPassed.skipIf {specs : List TypeSpec} {d : Cursor} (h : SpecsPassed .type c specs d) :
    DeclsPassed c specs (if d.rest.head?.map (·.kind) = some .semicolon then d.skip else d) := by
  refine ⟨d, h, ?_⟩
  split
  · rename_i hkind
    obtain ⟨p, ts, hrest⟩ := head_eq_some hkind
    exact .inr ⟨p, ts, hrest, Cursor.skip_of_rest hrest⟩
  · exact .inl rfl

theorem SpecsPassed.append {d e : Cursor} {specs others : List TypeSpec}
    (h : SpecsPassed .list c specs d) (h' : SpecsPassed .list d others e) :
    SpecsPassed .list c (specs ++ others) e := by
  rw [SpecsPassed, List.flatMap_append]
  refine Passes.trans (Passes.mono h fun hmap => ?_) (Passes.mono h' fun hmap => ?_)
  · exact hmap.mono (by simp) List.suffix_rfl (List.subset_append_left _ _)
  · exact hmap.mono (by simp) h.suffix (List.subset_append_right _ _)

end Reader

end FieldOrder.Source
