import FieldOrder.Proofs.Source.Steps

/-! Where struct literals start and end. Each literal that is found has a span of tokens, and the
spans come in the order in which they start. The room that readers are given bounds how deep spans
are nested in one another, but a literal in the type arguments of an embedded field has as much room
as the struct that the field belongs to. -/
namespace FieldOrder.Source

open Reader

/-- The span of a struct literal: the tokens from its keyword on, and those behind its closing
brace. -/
structure Span where
  place : List Token
  rest : List Token
deriving DecidableEq, Repr

/-- The keyword of the second span is between the braces of the first. -/
def Span.Holds (outer inner : Span) : Prop :=
  outer.rest.length < inner.place.length ∧ inner.place.length < outer.place.length

instance (outer inner : Span) : Decidable (outer.Holds inner) :=
  inferInstanceAs (Decidable (_ ∧ _))

/-- The literal is read at the span: a keyword and an opening brace stand at its start, and the
fields that are read behind them are those of the literal and end where the span does. -/
def StructLiteral.ReadAt (l : StructLiteral) (span : Span) : Prop :=
  ∃ q body fuel room a,
    span.place = ⟨.ident "struct", l.position⟩ :: ⟨.operator .leftBrace, q⟩ :: body ∧
    fieldList fuel room ⟨some (.operator .leftBrace), body⟩ = .ok a ∧ a.value = l.fields ∧
    a.cursor.rest = span.rest

/-- Of spans each of which is in the one before it, the number of those that are there in the type
arguments of an embedded field. -/
def argumentLinks : List Span → Nat
  | outer :: inner :: spans =>
    (inArguments inner.place.length none outer.place).toNat + argumentLinks (inner :: spans)
  | _ => 0

/-- The spans of the literals between two places, in their order. `bound` says how many may be
nested in one another that start with the one at a place, not counting those in type arguments of
embedded fields. -/
structure Arranged (bound : Nat → Nat) (c d : Cursor) (spans : List Span) : Prop where
  ordered : spans.Pairwise fun outer inner => inner.place.length < outer.place.length
  ahead : ∀ s ∈ spans, s.place <:+ c.rest
  closed : ∀ s ∈ spans, d.rest.length ≤ s.rest.length ∧ s.rest.length < s.place.length
  shallow : ∀ s chain, (s :: chain).Sublist spans → (s :: chain).Pairwise Span.Holds →
    chain.length + 1 ≤ bound s.place.length + argumentLinks (s :: chain)

def Noted (bound : Nat → Nat) (c : Cursor) (literals : List StructLiteral) (d : Cursor) : Prop :=
  c.Behind d ∧ ∃ spans, List.Forall₂ StructLiteral.ReadAt literals spans ∧ Arranged bound c d spans

namespace Noted

variable {bound : Nat → Nat} {c d e : Cursor} {literals others : List StructLiteral}

theorem of_behind (h : c.Behind d) : Noted bound c [] d :=
  ⟨h, [], .nil, .nil, by simp, by simp, by simp⟩

/-- Nothing that starts behind a span is held by it. -/
theorem not_holds {spans later : List Span} (h : Arranged bound c d spans)
    {wider : Nat → Nat} (h' : Arranged wider d e later) {s t : Span} (hs : s ∈ spans)
    (ht : t ∈ later) :
    ¬ s.Holds t := by
  intro hholds
  have hrest := (h.closed s hs).1
  have hplace := (h'.ahead t ht).length_le
  exact absurd (Nat.lt_of_le_of_lt hrest hholds.1) (Nat.not_lt_of_le hplace)

theorem trans (h : Noted bound c literals d) (h' : Noted bound d others e) :
    Noted bound c (literals ++ others) e := by
  obtain ⟨hbehind, spans, hread, harr⟩ := h
  obtain ⟨hbehind', later, hread', harr'⟩ := h'
  refine ⟨hbehind.trans hbehind', spans ++ later, List.rel_append hread hread', ?_, ?_, ?_, ?_⟩
  · refine List.pairwise_append.mpr ⟨harr.ordered, harr'.ordered, fun s hs t ht => ?_⟩
    have hs := harr.closed s hs
    have ht := (harr'.ahead t ht).length_le
    omega
  · intro s hs
    obtain hs | hs := List.mem_append.mp hs
    · exact harr.ahead s hs
    · exact (harr'.ahead s hs).trans hbehind.suffix
  · intro s hs
    obtain hs | hs := List.mem_append.mp hs
    · exact ⟨hbehind'.suffix.length_le.trans (harr.closed s hs).1, (harr.closed s hs).2⟩
    · exact harr'.closed s hs
  · intro s chain hsub hholds
    obtain ⟨front, back, heq, hfront, hback⟩ := List.sublist_append_iff.mp hsub
    cases front with
    | nil =>
      obtain rfl : s :: chain = back := heq
      exact harr'.shallow s chain hback hholds
    | cons first front =>
      rw [List.cons_append] at heq
      obtain ⟨rfl, rfl⟩ := List.cons.inj heq
      cases back with
      | nil =>
        rw [List.append_nil] at hholds ⊢
        exact harr.shallow s front hfront hholds
      | cons t back =>
        have hs : s ∈ spans := hfront.subset List.mem_cons_self
        have ht : t ∈ later := hback.subset List.mem_cons_self
        exact absurd ((List.pairwise_cons.mp hholds).1 t (by simp)) (not_holds harr harr' hs ht)

theorem after (h : c.Behind d) (h' : Noted bound d literals e) : Noted bound c literals e :=
  (of_behind h).trans h'

theorem behind (h : Noted bound c literals d) (hd : d.Behind e) : Noted bound c literals e := by
  simpa using h.trans (of_behind hd)

theorem literal {fuel room : Nat} {last : Option TokenKind} {p q : Position} {ts : List Token}
    {a : Reading (List (FieldDecl WrittenType))} {name : Option String}
    (hread : fieldList fuel room ⟨some (.operator .leftBrace), ts⟩ = .ok a)
    (h : Noted (fieldBound room ⟨some (.operator .leftBrace), ts⟩) ⟨some (.operator .leftBrace), ts⟩
      a.literals a.cursor)
    (hself : room + 1 ≤ bound (ts.length + 2))
    (hinner : ∀ n, fieldBound room ⟨some (.operator .leftBrace), ts⟩ n ≤ bound n) :
    Noted bound ⟨last, ⟨.ident "struct", p⟩ :: ⟨.operator .leftBrace, q⟩ :: ts⟩
      (⟨p, name, a.value⟩ :: a.literals) a.cursor := by
  obtain ⟨hbehind, spans, hreads, harr⟩ := h
  have hsuffix : a.cursor.rest.length ≤ ts.length := hbehind.suffix.length_le
  let span : Span := ⟨⟨.ident "struct", p⟩ :: ⟨.operator .leftBrace, q⟩ :: ts, a.cursor.rest⟩
  have hstart : Cursor.Behind ⟨last, span.place⟩ ⟨some (.operator .leftBrace), ts⟩ :=
    (Cursor.Behind.token _ _ _).trans (.token _ _ _)
  have hplace : ts.length + 2 = span.place.length := rfl
  have hahead {s : Span} (hs : s ∈ spans) : s.place <:+ ts := harr.ahead s hs
  refine ⟨hstart.trans hbehind, span :: spans,
    .cons ⟨q, ts, fuel, room, a, rfl, hread, rfl, rfl⟩ hreads, ?_, ?_, ?_, ?_⟩
  · refine List.pairwise_cons.mpr ⟨fun s hs => ?_, harr.ordered⟩
    have hle := (hahead hs).length_le
    omega
  · intro s hs
    obtain rfl | hs := List.mem_cons.mp hs
    · exact List.suffix_rfl
    · exact (hahead hs).trans hstart.suffix
  · intro s hs
    obtain rfl | hs := List.mem_cons.mp hs
    · exact ⟨Nat.le_refl _, by show a.cursor.rest.length < ts.length + 2; omega⟩
    · exact harr.closed s hs
  · intro s chain hsub hholds
    cases hsub with
    | cons _ hsub =>
      exact (harr.shallow s chain hsub hholds).trans (Nat.add_le_add_right (hinner _) _)
    | cons_cons _ hsub =>
      rw [← hplace]
      cases chain with
      | nil => exact (Nat.le_add_left 1 room).trans (hself.trans (Nat.le_add_right _ _))
      | cons t chain =>
        -- The next one is in type arguments of an embedded field of this literal, or takes up room.
        have hnext := harr.shallow t chain hsub (List.pairwise_cons.mp hholds).2
        have hlink : fieldBound room ⟨some (.operator .leftBrace), ts⟩ t.place.length ≤
            room + (inArguments t.place.length none span.place).toNat :=
          fieldBound_le_of_behind (c := ⟨none, span.place⟩)
            ((Cursor.Behind.token _ _ _).trans (.token _ _ _)) room _
        simp only [List.length_cons, argumentLinks] at hnext ⊢
        omega

end Noted

theorem Passes.noted {mapNamed : Prop} {bound : Nat → Nat} {way : Way} {c d : Cursor}
    {literals : List StructLiteral} (h : Passes mapNamed bound way c literals d) :
    Noted bound c literals d := by
  induction h with
  | stay => exact .of_behind (.refl _)
  | token => exact .of_behind (.token _ _ _)
  | brackets hrest => exact .of_behind (.brackets hrest _ _)
  | enclosed _ _ ih => exact (ih.after (.token _ _ _)).behind (.token _ _ _)
  | group _ _ ih => exact (ih.after (.token _ _ _)).behind (.token _ _ _)
  | beyond _ _ _ _ _ _ ih ih' => exact ((ih.trans ih').after (.token _ _ _)).behind (.skip _)
  | literal hread _ hself hinner ih =>
    exact .literal hread (ih.behind (.token _ _ _)) hself hinner
  | trans _ _ ih ih' => exact ih.trans ih'

namespace Skim

theorem Steps.noted {fuel : Nat} {s s' : Skim} {c c' : Cursor} (h : Steps fuel s c s' c') :
    ∃ sites, s'.outline.sites = s.outline.sites ++ sites ∧
      Noted (fun _ => nestingLimit + 1) c (sites.map (·.literal)) c' := by
  -- Steps that only pass over tokens.
  have hnone (hsites : s'.outline.sites = s.outline.sites) : ∃ sites,
      s'.outline.sites = s.outline.sites ++ sites ∧
        Noted (fun _ => nestingLimit + 1) c (sites.map (·.literal)) c' :=
    ⟨[], by rw [hsites, List.append_nil], .of_behind h.behind⟩
  cases h with
  | types h =>
    obtain ⟨sites, hsites, hliterals, -⟩ := sites_foldl_declare _ s
    have hway := ((meets_typeDecls fuel fuel _).yields _ h).inList
    exact ⟨sites, hsites, hliterals ▸ (Passes.noted hway).after (.token _ _ _)⟩
  | @literal c a hstruct h =>
    obtain ⟨p, q, rest, hrest⟩ := hstruct
    have hmeets := (readersMeet fuel fuel c).structType nestingLimit none
    have hway := (hmeets.yields a h).2.2 _ _ hrest
    refine ⟨a.literals.map (⟨·, s.scope⟩), rfl, ?_⟩
    simpa [Function.comp_def] using (hway.deepen (insideBound_le nestingLimit c 1)).noted
  | closes h => exact hnone (sites_closeBlock? h)
  | package => exact hnone rfl
  | function => exact hnone rfl
  | clears => exact hnone rfl
  | opens => exact hnone rfl
  | token => exact hnone rfl

theorem Runs.noted {s final : Skim} {c : Cursor} {ms : List Move} (h : Runs s c ms final) :
    ∃ sites d, final.outline.sites = s.outline.sites ++ sites ∧
      Noted (fun _ => nestingLimit + 1) c (sites.map (·.literal)) d := by
  induction h with
  | @done s last => exact ⟨[], ⟨last, []⟩, (List.append_nil _).symm, .of_behind (.refl _)⟩
  | step hstep hrun ih =>
    obtain ⟨sites, hsites, hnoted⟩ := hstep.noted
    obtain ⟨others, d, hothers, hnoted'⟩ := ih
    refine ⟨sites ++ others, d, by rw [hothers, hsites, List.append_assoc], ?_⟩
    rw [List.map_append]
    exact hnoted.trans hnoted'

end Skim

theorem Outline.noted_of_ofTokens {stream : TokenStream} {outline : Outline}
    (h : ofTokens stream = .ok outline) :
    ∃ d, Noted (fun _ => nestingLimit + 1) (.start stream.tokens)
      (outline.sites.map (·.literal)) d := by
  obtain ⟨final, hrun, rfl⟩ := runs_of_ofTokens h
  obtain ⟨sites, d, hsites, hnoted⟩ := hrun.noted
  refine ⟨d, ?_⟩
  rw [hsites]
  exact hnoted

end FieldOrder.Source
