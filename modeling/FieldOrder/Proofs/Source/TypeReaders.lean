import FieldOrder.Proofs.Source.Meets
import FieldOrder.Proofs.Source.Passed

/-! What every reader of types does, one statement for each: the way that it goes, that it goes on,
that it fails only for a reason in the text, and that fuel beyond one for each token ahead makes no
difference. -/
namespace FieldOrder.Source

namespace Reader

variable {α β : Type} {enough : Prop} {bound : Nat → Nat} {c : Cursor}

theorem meets_typeParameters (c : Cursor) :
    typeParameters.Meets typeParameters enough c fun a => ∀ p ts,
      c.rest = ⟨.operator .leftBracket, p⟩ :: ts → a.literals = [] ∧
        a.cursor.last = some (.operator .rightBracket) ∧ a.cursor.rest ∈ behindBrackets ts := by
  refine .ahead ?_
  split
  · rename_i inside after hgroup
    refine .advance (.pure fun p ts hrest => ?_)
    obtain ⟨last, _⟩ := c
    cases hrest
    have hsplit : splitGroup .leftBracket .rightBracket 0 ts = some (inside, after) := hgroup
    have hmem : after ∈ behindBrackets ts := by simp [behindBrackets, hsplit]
    obtain ⟨q, rfl⟩ := splitGroup_eq_some hsplit
    rw [Cursor.advance, Cursor.skip_mk_cons, Cursor.advance_append]
    exact ⟨rfl, rfl, hmem⟩
  · exact .fail (by simp)

theorem meets_arrayLength (bound : Nat → Nat) (last : Option TokenKind) (p : Position)
    (ts : List Token) :
    arrayLength.Meets arrayLength enough ⟨some (.operator .leftBracket), ts⟩ fun a =>
      a.literals = [] ∧ a.cursor.last = some (.operator .rightBracket) ∧
      (startsRightSide a.cursor.rest = true → Passes (last = some (.ident "map")) bound .type
        ⟨last, ⟨.operator .leftBracket, p⟩ :: ts⟩ [] a.cursor) := by
  refine .ahead ?_
  split
  · rename_i heq
    cases heq
    exact .advance (.pure ⟨rfl, rfl, fun _ => .enclosed rfl (.plain rfl (by simp) rfl)⟩)
  · split
    · rename_i length hlength
      obtain ⟨q, rest, rfl⟩ := lengthTokens?_eq_some hlength
      refine .advance (.pure ?_)
      rw [Cursor.advance_append]
      refine ⟨rfl, rfl, fun hstart => .brackets ?_ hstart id⟩
      simp [behindBrackets, hlength]
    · exact .failAtEnd (by simp)

theorem passes_namesAhead (ts : List Token) (last : Option TokenKind) (d : Cursor)
    (hd : Cursor.advance (2 * (namesAhead ts).length) ⟨last, ts⟩ = d)
    (hbrace : ¬ BraceAhead d.rest) :
    Passes False bound .type ⟨last, ts⟩ [] d ∧ ¬ BraceAhead ts ∧
      (d.last = some (.ident "map") → last = some (.ident "map") ∨ "map" ∈ namesAhead ts) := by
  fun_induction namesAhead ts generalizing last with
  | case1 p name q ts ih =>
    obtain ⟨hway, hnext, hlast⟩ := ih (some (.ident name)) hd
    have hname : Passes False bound .type ⟨some (.operator .comma), ⟨.ident name, q⟩ :: ts⟩ []
        ⟨some (.ident name), ts⟩ := .token rfl fun hs => absurd hs.braceAhead hnext
    have hcomma : Passes False bound .type
        ⟨last, ⟨.operator .comma, p⟩ :: ⟨.ident name, q⟩ :: ts⟩ []
        ⟨some (.operator .comma), ⟨.ident name, q⟩ :: ts⟩ := .plain rfl (by simp) rfl
    refine ⟨(hcomma.trans hname).trans hway, by simp [BraceAhead], fun hmap => .inr ?_⟩
    obtain hlast | hlast := hlast hmap
    · cases hlast
      exact List.mem_cons_self
    · exact List.mem_cons_of_mem name hlast
  | case2 ts =>
    cases hd
    exact ⟨.stay, hbrace, .inl⟩

theorem meets_moreNames (bound : Nat → Nat) (c : Cursor) :
    moreNames.Meets moreNames enough c fun a => a.literals = [] ∧
      (¬ BraceAhead a.cursor.rest → Passes False bound .type c [] a.cursor ∧
        ¬ BraceAhead c.rest ∧ (a.cursor.last = some (.ident "map") →
          c.last = some (.ident "map") ∨ "map" ∈ a.value)) := by
  refine .ahead (.advance (.peek (.ite (fun _ => ?_) fun _ => ?_)))
  · exact .skip (.fail (by simp))
  · exact .pure ⟨rfl, passes_namesAhead c.rest c.last _ rfl⟩

theorem meets_fieldEnd (bound : Nat → Nat) (c : Cursor) : fieldEnd.Meets fieldEnd enough c fun a =>
    a.literals = [] ∧ ¬ BraceAhead c.rest ∧ Passes False bound .list c [] a.cursor ∧
      FieldNext a.cursor := by
  have htag : Passes False bound .list c []
      (if c.rest.head?.map (·.kind) = some .literal then c.skip else c) := .skipIf (by simp) rfl
  refine .skipIf ?_
  have hbrace : BraceAhead c.rest →
      BraceAhead (if c.rest.head?.map (·.kind) = some .literal then c.skip else c).rest := by
    intro hbrace
    rw [if_neg (by simp [show _ = _ from hbrace])]
    exact hbrace
  generalize (if c.rest.head?.map (·.kind) = some .literal then c.skip else c) = d at htag hbrace
  refine .peek ?_
  split
  · rename_i hend
    obtain ⟨p, ts, hrest⟩ := head_eq_some hend
    refine .of_ok rfl (.skip d) ⟨rfl, fun hc => ?_, ?_, .inl ?_⟩
    · simpa [hrest, BraceAhead] using hbrace hc
    · rw [Cursor.skip_of_rest hrest]
      exact htag.trans (.plain hrest (by simp) rfl)
    · rw [Cursor.skip_of_rest hrest]
      rfl
  · rename_i hend
    refine .pure ⟨rfl, fun hc => ?_, htag, .inr hend⟩
    simpa [show _ = _ from hend, BraceAhead] using hbrace hc
  · exact .fail (by simp)

/-! ### Recursive readers -/

/-- What the recursive readers do further on than the cursor. -/
structure ReadersMeet (enough : Prop) (fuel fuel' : Nat) (c : Cursor) : Prop where
  type (room : Nat) (d : Cursor) (hd : c.Further d) :
    (typeExpr fuel room).Meets (typeExpr fuel' room) enough d (TypePassed room d)
  fields (room : Nat) (d : Cursor) (hd : c.Further d) :
    (fieldList fuel room).Meets (fieldList fuel' room) enough d fun a =>
      FieldNext d → FieldsClosed (fieldBound room d) d a
  inside (room left : Nat) (d : Cursor) (hd : c.Further d) (hleft : left ≤ d.rest.length) :
    (groupInside fuel room left).Meets (groupInside fuel' room left) enough d
      (InsidePassed room left d)

namespace ReadersMeet

variable {fuel fuel' : Nat}

theorem of_behind (h : ReadersMeet enough fuel fuel' c) {d : Cursor} (hd : c.Behind d) :
    ReadersMeet enough fuel fuel' d where
  type room e he := h.type room e (hd.further he)
  fields room e he := h.fields room e (hd.further he)
  inside room left e he := h.inside room left e (hd.further he)

/-- A group of brackets. If reading goes on beyond it, the token passed over in place of the closing
bracket is behind a brace. -/
theorem bracketGroup (h : ReadersMeet enough fuel fuel' c) (room : Nat) :
    (bracketGroup (groupInside fuel room)).Meets (bracketGroup (groupInside fuel' room)) enough c
      fun a => Passed (groupBound room c (group? c.rest)) .type c a ∧
        (a.cursor.last = some (.ident "map") → MapMisused c.rest a.literals) := by
  refine .ahead ?_
  split
  · rename_i tokens after hgroup
    have hbound := insideBound_le_groupBound hgroup room
    obtain ⟨last, ts⟩ := c
    obtain ⟨op, p, closing, q, hrest⟩ := group?_eq_some hgroup
    cases hrest
    refine .skip ((h.inside room tokens.length _ (.token _ _ _) (by simp)).bind fun a _ hend => ?_)
    refine .of_ok rfl (.skip _) ?_
    rw [List.append_nil]
    have hmono (hmap : MapMisused (tokens ++ ⟨.operator closing, q⟩ :: after) a.literals) :
        MapMisused (⟨.operator op, p⟩ :: (tokens ++ ⟨.operator closing, q⟩ :: after)) a.literals :=
      hmap.mono (List.suffix_cons _ _) (List.Subset.refl _)
    obtain ⟨hinside, hlength⟩ | ⟨literals, others, d, hliterals, hd, hstart, hover, hstop, hlast⟩ :=
      hend
    · -- The closing bracket is next.
      have hlength' : a.cursor.rest.length = (⟨.operator closing, q⟩ :: after).length := by
        simp only [List.length_append] at hlength
        omega
      have hrest : a.cursor.rest = ⟨.operator closing, q⟩ :: after :=
        (List.suffix_of_suffix_length_le hinside.suffix (List.suffix_append tokens _)
          hlength'.le).eq_of_length hlength'
      rw [Cursor.skip_of_rest hrest]
      obtain ⟨value, literals, ⟨last', rest⟩⟩ := a
      cases hrest
      exact ⟨.group hgroup (Passes.deepen (Passes.mono hinside hmono) hbound),
        fun hmap => by cases hmap⟩
    · simp only [List.length_append, List.length_cons] at hstart hstop
      have hfurther : Cursor.Further _ a.cursor :=
        (hd.behind.trans hover.behind).resolve_left fun heq => by
          have hlength := congrArg (·.rest.length) heq
          simp only [List.length_append, List.length_cons] at hlength
          omega
      constructor
      · rw [Passed, hliterals]
        exact .beyond hgroup ((hd.mono (hliterals ▸ hmono)).deepen hbound) (by omega)
          ((hover.mono (hliterals ▸ hmono)).deepen hbound) (by omega) hlast
      · exact fun hmap => hmono (.of_skip hfurther hlast hmap)
  · exact .fail (by simp)

theorem arguments (h : ReadersMeet enough fuel fuel' c) (room : Nat) {d : Cursor}
    (hfurther : c.Further d) (hd : StructAhead c.rest ∧ BraceAhead d.rest ∨
      Passes False (groupBound room c (typeArguments? c.rest)) .type c [] d)
    {p : Prop} [Decidable p] (hp : p → ∃ q ts, d.rest = ⟨.operator .leftBracket, q⟩ :: ts ∧
      typeArguments? c.rest = group? d.rest) (value : α) :
    (if p then do Reader.bracketGroup (groupInside fuel room); pure value else pure value).Meets
      (if p then do Reader.bracketGroup (groupInside fuel' room); pure value else pure value)
      enough d fun a => c.Further a.cursor ∧ (StructAhead c.rest ∧ BraceAhead a.cursor.rest ∨
        Passed (groupBound room c (typeArguments? c.rest)) .type c a) := by
  refine .ite (fun hbracket => ?_) fun _ => .pure ⟨hfurther, hd.imp_right (·.mono False.elim)⟩
  obtain ⟨q, ts, hrest, hargs⟩ := hp hbracket
  have hway := hd.resolve_left fun hbrace => by simpa [BraceAhead, hrest] using hbrace.2
  refine .bind_pure (((h.of_behind hfurther.behind).bracketGroup room).mono fun a ha hpassed => ?_)
  refine ⟨hfurther.trans ha, .inr (Passed.after hway (Passes.deepen hpassed.1 fun n => ?_) value)⟩
  rw [hargs]
  exact groupBound_le_of_behind hfurther.behind room _ n

/-- A type name. The word `struct` is taken for one as well, and its brace is left over. -/
theorem typeName (h : ReadersMeet enough fuel fuel' c) (room : Nat) :
    (typeName (groupInside fuel room)).Meets (typeName (groupInside fuel' room)) enough c fun a =>
      c.Further a.cursor ∧ (StructAhead c.rest ∧ BraceAhead a.cursor.rest ∨
        Passed (groupBound room c (typeArguments? c.rest)) .type c a) := by
  refine .ident fun first p ts hrest => .peek (.ite (fun hdot => ?_) fun hdot => ?_)
  · obtain ⟨q, us, rfl⟩ := head_eq_some hdot
    refine .skip (.ident fun name r vs hname => .pure_bind (.peek ?_))
    cases hname
    have hdotted : Passes False (groupBound room c (typeArguments? c.rest)) .type
        ⟨some (.ident first), ⟨.operator .dot, q⟩ :: ⟨.ident name, r⟩ :: vs⟩ []
        ⟨some (.ident name), vs⟩ :=
      (Passes.plain rfl (by simp) rfl).trans (.token rfl fun _ => .inl rfl)
    refine h.arguments room ?_ (.inr (Passes.trans (.of_rest hrest rfl fun hs => ?_) hdotted)) ?_ _
    · exact (Cursor.Further.of_rest hrest).trans ((Cursor.Behind.token _ _ _).trans (.token _ _ _))
    · cases (hrest ▸ hs).braceAhead
    · intro hbracket
      obtain ⟨s, ws, rfl⟩ := head_eq_some hbracket
      exact ⟨s, ws, rfl, by rw [hrest, typeArguments?]⟩
  · refine .pure_bind (.peek (h.arguments room (.of_rest hrest) ?_ ?_ _))
    · by_cases hs : StructAhead c.rest
      · exact .inl ⟨hs, (hrest ▸ hs).braceAhead⟩
      · exact .inr (.of_rest hrest rfl fun hstruct => absurd hstruct hs)
    · intro hbracket
      obtain ⟨q, us, rfl⟩ := head_eq_some hbracket
      exact ⟨q, us, rfl, by rw [hrest, typeArguments?]⟩

theorem structType (h : ReadersMeet enough fuel fuel' c) (room : Nat) (name : Option String) :
    (structType name (fieldList fuel room)).Meets (structType name (fieldList fuel' room)) enough c
      fun a => c.Further a.cursor ∧ a.cursor.last = some (.operator .rightBrace) ∧
        ∀ p rest, c.rest = ⟨.ident "struct", p⟩ :: rest →
          Passed (insideBound room c 1) .type c a := by
  refine .ahead (.skip (.expect fun q ts hbrace => ?_))
  have hfurther := (Cursor.Behind.skip c).further (.of_rest hbrace)
  refine .bind_pure (.map (fun a => ⟨a.value, ⟨_, name, a.value⟩ :: a.literals, a.cursor⟩) ?_
    rfl rfl fun _ ha => ha)
  refine (h.fields room _ hfurther).eq.mono fun a ha hread => ⟨hfurther.trans ha, ?_⟩
  obtain ⟨hread, hclosed⟩ := hread
  obtain ⟨last', r, hfields, hlast⟩ := hclosed (.inl rfl)
  refine ⟨hlast, fun p rest hc => ?_⟩
  obtain ⟨last, _⟩ := c
  cases hc
  cases hbrace
  obtain ⟨decls, literals, ⟨_, rest⟩⟩ := a
  cases hlast
  refine Passes.literal hread (Passes.mono hfields fun hmap => ?_) ?_ fun n => ?_
  · obtain hname | hmap := hmap
    · obtain ⟨f, hf, hname⟩ := List.mem_map.mp hname
      exact .inl ⟨_, List.mem_cons_self, f, hf, hname⟩
    · exact hmap.mono hfurther.behind.suffix (List.subset_cons_self _ _)
  · rw [insideBound, if_pos (by simp)]
  · exact (fieldBound_le_of_behind hfurther.behind room n).trans
      (fieldBound_le_insideBound room _ 1 n)

theorem signature (h : ReadersMeet enough fuel fuel' c) (room : Nat) {d : Cursor}
    (hd : c.Further d) :
    (signature (groupInside fuel room) (typeExpr fuel room)).Meets
      (signature (groupInside fuel' room) (typeExpr fuel' room)) enough d
      (Passed (fun _ => room + 1) .type d) := by
  have hgroup {e : Cursor} (he : d.Behind e) :=
    ((h.of_behind (hd.trans he).behind).bracketGroup room).mono fun a _ ha =>
      And.intro (Passes.deepen ha.1 (groupBound_le room e _)) ha.2
  refine .peek (.ite (fun _ => (hgroup (.refl d)).bind fun a hbehind ha => .peek ?_) fun _ =>
    .fail_bind (by simp))
  obtain ⟨ha, hmap⟩ := ha
  -- The result is read as a type, or there is none.
  have hresult : (discard (Reader.typeExpr fuel room)).Meets
      (discard (Reader.typeExpr fuel' room)) enough a.cursor fun b =>
        Passed (fun _ => room + 1) .type d ⟨b.value, a.literals ++ b.literals, b.cursor⟩ := by
    refine .discard ((h.type room a.cursor (hd.trans hbehind)).mono fun b _ hb => ?_)
    refine Passes.trans (ha.mono fun hmap => ?_) ((hb.2.mono fun hlast => ?_).deepen fun _ =>
      Nat.le_succ room)
    · exact hmap.mono List.suffix_rfl (List.subset_append_left _ _)
    · obtain hlast | hmap' := hlast
      · exact (hmap hlast).mono List.suffix_rfl (List.subset_append_left _ _)
      · exact hmap'.mono ha.suffix (List.subset_append_right _ _)
  split
  · exact (hgroup hbehind).mono fun b _ hb => Passed.seq ha .stay hb.1 ()
  · exact hresult
  · exact hresult
  · exact hresult
  · exact hresult
  · refine .pure ?_
    rw [List.append_nil]
    exact ha

theorem not_structAhead_of_isEmbedded {ts : List Token} (h : isEmbedded ts = true) :
    ¬ StructAhead ts := by
  intro hstruct
  obtain ⟨p, q, rest, rfl⟩ := hstruct
  cases h

theorem embeddedArguments?_of_isEmbedded {ts : List Token} (h : isEmbedded ts = true)
    (hstar : ts.head?.map (·.kind) ≠ some (.operator .star)) :
    embeddedArguments? ts = typeArguments? ts := by
  unfold embeddedArguments?
  split
  · exact absurd rfl hstar
  · rw [if_pos h]

/-- One declaration of fields. Behind it stands no opening brace. -/
theorem fieldDecl (h : ReadersMeet enough fuel fuel' c) (room : Nat) :
    (fieldDecl (groupInside fuel room) (typeExpr fuel room)).Meets
      (fieldDecl (groupInside fuel' room) (typeExpr fuel' room)) enough c fun a =>
        c.Further a.cursor ∧ (¬ BraceAhead a.cursor.rest →
          FieldsPassed (groupBound room c (embeddedArguments? c.rest)) c a) := by
  refine .peek (.ite (fun hstar => ?_) fun hstar => .ahead (.ite (fun hembedded => ?_) fun _ => ?_))
  · obtain ⟨last, _⟩ := c
    obtain ⟨p, ts, rfl⟩ := head_eq_some hstar
    have hskip : Cursor.Further ⟨last, ⟨.operator .star, p⟩ :: ts⟩ ⟨some (.operator .star), ts⟩ :=
      .token _ _ _
    refine .skip (.bind_pure (((h.of_behind hskip.behind).typeName room).mono fun a ha hname => ?_))
    refine ⟨hskip.trans ha, fun hbrace => ?_⟩
    have hway := hname.2.resolve_left fun hstruct => hbrace hstruct.2
    have hway' := Passes.deepen hway (groupBound_le_of_behind hskip.behind room _)
    have hpassed := Passed.after (c := ⟨last, ⟨.operator .star, p⟩ :: ts⟩)
      (.plain rfl (by simp) rfl) hway' ()
    exact hpassed.inList.mono .inr
  · refine .bind_pure ((h.typeName room).mono fun a _ hname => ⟨hname.1, fun _ => ?_⟩)
    have hway := hname.2.resolve_left fun hs => not_structAhead_of_isEmbedded hembedded hs.1
    rw [embeddedArguments?_of_isEmbedded hembedded hstar]
    exact (Passes.inList hway).mono .inr
  · refine .ident fun first p ts hrest => ?_
    have hfirst : c.Further ⟨some (.ident first), ts⟩ := .of_rest hrest
    refine (meets_moreNames (groupBound room c (embeddedArguments? c.rest)) _).bind
      fun names hnames hmore => ?_
    have hfront := hfirst.trans hnames
    refine .bind_pure ((h.type room names.cursor hfront).mono fun a ha htype => ?_)
    refine ⟨hfront.trans ha, fun _ => ?_⟩
    obtain ⟨⟨t, us, hrest', hstart⟩, htype⟩ := htype
    have hbrace := not_braceAhead_of_startsRightSide (startsRightSide_of_startsType hrest' hstart)
    obtain ⟨hnone, hmore⟩ := hmore
    obtain ⟨hway, hnext, hlast⟩ := hmore hbrace
    have hname : Passes False (groupBound room c (embeddedArguments? c.rest)) .type c []
        ⟨some (.ident first), ts⟩ :=
      .of_rest hrest rfl fun hs => absurd (hrest ▸ hs).braceAhead hnext
    rw [FieldsPassed, hnone]
    refine Passes.inList (((hname.trans hway).mono False.elim).trans
      ((htype.mono fun hmap => ?_).deepen fun n => ?_))
    · obtain hmap | hmap := hmap
      · obtain hmap | hmap := hlast hmap
        · cases hmap
          exact .inl (by simp)
        · exact .inl (by simp [hmap])
      · exact .inr (hmap.mono hfront.behind.suffix (List.Subset.refl _))
    · exact (le_fieldBound room _ n).trans (fieldBound_le_groupBound room _ _ n)

theorem inner {last : Option TokenKind} {kind : TokenKind} {p : Position} {ts : List Token}
    (h : ReadersMeet enough fuel fuel' ⟨last, ⟨kind, p⟩ :: ts⟩) (room : Nat) {d : Cursor}
    (hstart : kind.startsType = true) (hfirst : Cursor.Behind ⟨some kind, ts⟩ d)
    (hd : Passes False (fun _ => room + 1) .type ⟨last, ⟨kind, p⟩ :: ts⟩ [] d)
    (hlast : d.last ≠ some (.ident "map")) (value : β) :
    (discard (typeExpr fuel room)).Meets (discard (typeExpr fuel' room)) enough d fun a =>
      TypePassed (room + 1) ⟨last, ⟨kind, p⟩ :: ts⟩ ⟨value, a.literals, a.cursor⟩ := by
  have hfurther := (Cursor.Further.token last ⟨kind, p⟩ ts).trans hfirst
  refine .discard ((h.type room d hfurther).mono fun a _ ha => ?_)
  have hpassed : Passed (fun _ => room + 1) .type d a :=
    ha.passed (fun _ => Nat.le_succ room) fun hmap => absurd hmap hlast
  exact (Passed.after hd hpassed value).typePassed (fun _ => Nat.le_refl _) rfl hstart

theorem typeExpr (h : ReadersMeet enough fuel fuel' c) (room : Nat) :
    (typeExpr (fuel + 1) room).Meets (typeExpr (fuel' + 1) room) enough c (TypePassed room c) := by
  cases room with
  | zero =>
    rw [Reader.typeExpr, Reader.typeExpr]
    exact .fail (by simp)
  | succ room =>
    have htype {d : Cursor} (hd : c.Further d) (hlast : d.last ≠ some (.ident "map")) :
        (Reader.typeExpr fuel room).Meets (Reader.typeExpr fuel' room) enough d
          (Passed (fun _ => room + 1) .type d) :=
      (h.type room d hd).mono fun a _ ha =>
        ha.passed (fun _ => Nat.le_succ room) fun hmap => absurd hmap hlast
    rw [Reader.typeExpr, Reader.typeExpr]
    refine .peek ?_
    obtain ⟨last, ts⟩ := c
    split <;> rename_i hhead
    · -- `struct`
      obtain ⟨p, ts, rfl⟩ := head_eq_some hhead
      exact (h.structType room none).mono fun a _ ha =>
        Passed.typePassed (ha.2.2 _ _ rfl) (insideBound_le room _ 1) rfl rfl
    · -- `interface`
      obtain ⟨p, ts, rfl⟩ := head_eq_some hhead
      refine .skip (.bind_pure (.mono ((h.of_behind (.token _ _ _)).bracketGroup room) ?_))
      exact fun a _ ha => ha.1.word (by simp) (groupBound_le room _ _) _
    · -- `map`
      obtain ⟨p, ts, rfl⟩ := head_eq_some hhead
      refine .skip (.expect fun q us hus => ?_)
      cases hus
      have hfirst : Cursor.Further ⟨last, ⟨.ident "map", p⟩ :: ⟨.operator .leftBracket, q⟩ :: us⟩
          ⟨some (.operator .leftBracket), us⟩ := (Cursor.Further.token _ _ _).trans (.token _ _ _)
      have hkey : (discard (Reader.typeExpr fuel room)).Meets
          (discard (Reader.typeExpr fuel' room)) enough ⟨some (.operator .leftBracket), us⟩
          (Passed (fun _ => room + 1) .type ⟨some (.operator .leftBracket), us⟩) :=
        .discard ((htype hfirst (by simp)).mono fun _ _ ha => ha)
      refine hkey.bind fun a hbehind ha => .expect fun r vs hvs => ?_
      have hvalue := (hfirst.trans hbehind).trans (Cursor.Further.of_rest hvs).behind
      refine .bind_pure (.discard ((htype hvalue (by simp)).mono fun b _ hb => ?_))
      have hbrackets : Passed (fun _ => room + 1) .type
          ⟨some (.ident "map"), ⟨.operator .leftBracket, q⟩ :: us⟩
          ⟨(), a.literals, ⟨some (.operator .rightBracket), vs⟩⟩ := .enclosed rfl ha hvs ()
      exact (hbrackets.seq .stay hb ()).word (by simp) (fun _ => Nat.le_refl _) _
    · -- `chan`
      obtain ⟨p, ts, rfl⟩ := head_eq_some hhead
      refine .skip (.skipIf (.bind_pure (h.inner room rfl (.skipIf _ _)
        ((Passes.plain rfl (by simp) rfl).trans (.skipIf (by simp) rfl)) ?_ _)))
      by_cases harrow : ts.head?.map (·.kind) = some (.operator .arrow)
      · obtain ⟨q, us, rfl⟩ := head_eq_some harrow
        simp
      · simp [harrow]
    · -- `func`
      obtain ⟨p, ts, rfl⟩ := head_eq_some hhead
      refine .skip (.bind_pure ((h.signature room (.token _ _ _)).mono fun a _ ha => ?_))
      exact ha.word (by simp) (fun _ => Nat.le_refl _) _
    · -- a name
      rename_i name hstruct _ _ _ _
      obtain ⟨p, ts, rfl⟩ := head_eq_some hhead
      refine .bind_pure ((h.typeName room).mono fun a _ ha => ?_)
      refine Passed.typePassed (ha.2.resolve_left fun hs => ?_) (groupBound_le room _ _) rfl rfl
      obtain ⟨q, r, rest, heq⟩ := hs.1
      cases heq
      exact hstruct rfl
    · -- a pointer
      obtain ⟨p, ts, rfl⟩ := head_eq_some hhead
      exact .skip (.bind_pure (h.inner room rfl (.refl _) (.plain rfl (by simp) rfl) (by simp) _))
    · -- a channel to receive from
      obtain ⟨p, ts, rfl⟩ := head_eq_some hhead
      refine .skip (.peek (.ite (fun hchan => ?_) fun _ => .fail_bind (by simp)))
      obtain ⟨q, us, rfl⟩ := head_eq_some hchan
      exact .skip (.bind_pure (h.inner room rfl (.token _ _ _)
        ((Passes.plain rfl (by simp) rfl).trans (.plain rfl (by simp) rfl)) (by simp) _))
    · -- a slice or an array
      obtain ⟨p, ts, rfl⟩ := head_eq_some hhead
      refine .skip (.peek (.ite (fun hslice => ?_) fun _ => ?_))
      · obtain ⟨q, us, rfl⟩ := head_eq_some hslice
        exact .skip (.bind_pure (h.inner room rfl (.token _ _ _) (.enclosed rfl .stay) (by simp) _))
      · refine (meets_arrayLength (fun _ => room + 1) last p ts).bind fun a hbehind ha => ?_
        obtain ⟨hnone, hlast, ha⟩ := ha
        have hfurther := (Cursor.Further.token last ⟨.operator .leftBracket, p⟩ ts).trans hbehind
        refine .bind_pure ((h.type room _ hfurther).mono fun b _ hb => ?_)
        obtain ⟨t, us, hrest, hstart⟩ := hb.1
        have hway := ha (startsRightSide_of_startsType hrest hstart)
        refine ⟨⟨_, _, rfl, rfl⟩, ?_⟩
        rw [hnone, List.nil_append]
        refine (hway.mono .inl).trans
          ((hb.2.mono fun hmap => .inr ?_).deepen fun _ => Nat.le_succ room)
        obtain hmap | hmap := hmap
        · rw [hlast] at hmap
          cases hmap
        · exact hmap.mono hway.suffix (List.Subset.refl _)
    · -- a type in brackets
      obtain ⟨p, ts, rfl⟩ := head_eq_some hhead
      refine .skip ((htype (.token _ _ _) (by simp)).bind fun a _ ha => .expect fun q us hus => ?_)
      refine .pure ?_
      rw [List.append_nil]
      exact (Passed.enclosed rfl ha hus _).typePassed (fun _ => Nat.le_refl _) rfl rfl
    · exact .fail (by simp)

theorem fieldRound (h : ReadersMeet enough fuel fuel' c) (room : Nat) :
    (fieldRound fuel room).Meets (fieldRound fuel' room) enough c fun a => c.Further a.cursor ∧
      (a.value = none → FieldsClosed (fieldBound room c) c ⟨[], a.literals, a.cursor⟩) ∧
      ∀ fields, a.value = some fields → FieldNext c →
        FieldsPassed (fieldBound room c) c ⟨fields, a.literals, a.cursor⟩ ∧ FieldNext a.cursor := by
  refine .peek ?_
  split
  · rename_i hhead
    obtain ⟨p, ts, hrest⟩ := head_eq_some hhead
    refine .skip (.pure ⟨.skip hrest, by simp, fun fields hfields _ => ?_⟩)
    cases hfields
    rw [Cursor.skip_of_rest hrest]
    exact ⟨.plain hrest (by simp) rfl, .inl rfl⟩
  · rename_i hhead
    obtain ⟨last, _⟩ := c
    obtain ⟨p, ts, rfl⟩ := head_eq_some hhead
    exact .skip (.pure ⟨.token _ _ _, fun _ => ⟨last, p, .stay, rfl⟩, by simp⟩)
  · exact .fail (by simp)
  · rename_i kind _ hbrace hkind
    refine (h.fieldDecl room).bind fun a _ ha => ?_
    refine .bind_pure ((meets_fieldEnd (fieldBound room c) a.cursor).mono fun b hb hend => ?_)
    refine ⟨ha.1.trans hb, by simp, fun fields hfields hnext => ?_⟩
    cases hfields
    have hstart : startsField c.last = true := by
      refine hnext.resolve_right fun hhead => ?_
      rw [hkind] at hhead
      exact hbrace (Option.some.inj hhead)
    obtain ⟨hnone, hbrace, hend, hnext⟩ := hend
    refine ⟨?_, hnext⟩
    rw [FieldsPassed, hnone]
    refine Passes.trans (Passes.deepen ?_ fun n => (groupBound_embedded hstart room n).le)
      (hend.mono False.elim)
    rw [List.append_nil]
    exact ha.2 hbrace

theorem fieldList (h : ReadersMeet enough fuel fuel' c) (room : Nat) :
    (fieldList (fuel + 1) room).Meets (fieldList (fuel' + 1) room) enough c fun a =>
      FieldNext c → FieldsClosed (fieldBound room c) c a := by
  rw [fieldList_succ, fieldList_succ]
  refine (h.fieldRound room).andOn (fun a ha hnone _ => ha.2.1 hnone) fun a fields ha hfields => ?_
  refine (h.fields room a.cursor ha.1).mono fun b _ hb hc => ?_
  obtain ⟨hround, hnext⟩ := ha.2.2 fields hfields hc
  obtain ⟨last, q, hlater, hlast⟩ := hb hnext
  have hlater' := Passes.deepen hlater (fieldBound_le_of_behind ha.1.behind room)
  exact ⟨last, q, hround.append hlater', hlast⟩

/-- A round on the way to the end of a group. If it is not the last it has come closer to the end,
or has passed it. -/
theorem insideRound (h : ReadersMeet enough fuel fuel' c) (room : Nat) {left : Nat}
    (hleft : left ≤ c.rest.length) :
    (insideRound fuel room left).Meets (insideRound fuel' room left) enough c fun a =>
      (a.value = none → left = 0 ∧ a.literals = [] ∧ a.cursor = c) ∧
      ∀ more, a.value = some more → c.Further a.cursor ∧
        more = left - (c.rest.length - a.cursor.rest.length) ∧
        (Passed (insideBound room c left) .group c a ∧
            c.rest.length ≤ a.cursor.rest.length + left ∨
          Overran (insideBound room c left) left c a) := by
  cases left with
  | zero => exact .pure ⟨fun _ => ⟨rfl, rfl, rfl⟩, by simp⟩
  | succ left =>
    refine .ahead ?_
    split
    · rename_i p q us hrest
      rw [← hrest]
      have hliteral : (discard (Reader.structType none (Reader.fieldList fuel room))).Meets
          (discard (Reader.structType none (Reader.fieldList fuel' room))) enough c fun a =>
            c.Further a.cursor ∧ Passed (insideBound room c (left + 1)) .type c a ∧
              a.cursor.last = some (.operator .rightBrace) := by
        refine .discard ((h.structType room none).mono fun a _ ha => ?_)
        have hbound := insideBound_le_of_behind (.refl c) (Nat.add_le_add_left
          (Nat.le_add_left 1 left) c.rest.length) room
        exact ⟨ha.1, Passes.deepen (ha.2.2 _ _ hrest) hbound, ha.2.1⟩
      refine hliteral.bind fun a _ ha => .ahead (.pure ⟨by simp, fun more hmore => ?_⟩)
      obtain ⟨hfurther, hpassed, hlast⟩ := ha
      rw [List.append_nil]
      refine ⟨hfurther, (Option.some.inj hmore).symm, ?_⟩
      by_cases hover : c.rest.length ≤ a.cursor.rest.length + (left + 1)
      · exact .inl ⟨Passes.inGroup hpassed, hover⟩
      · -- The literal goes on beyond the brackets.
        exact .inr ⟨[], a.literals, c, rfl, .stay, by omega, hpassed, Nat.lt_of_not_le hover, hlast⟩
    · rename_i hstruct
      refine .skip (.pure ⟨by simp, fun more hmore => ?_⟩)
      obtain ⟨last, _ | ⟨t, ts⟩⟩ := c
      · simp at hleft
      cases hmore
      refine ⟨.token _ _ _, ?_, .inl ⟨.token rfl fun hs => ?_, ?_⟩⟩
      · show left = left + 1 - (ts.length + 1 - ts.length)
        omega
      · obtain ⟨p, q, us, heq⟩ := hs
        exact (hstruct p q us heq).elim
      · show ts.length + 1 ≤ ts.length + (left + 1)
        omega

theorem groupInside (h : ReadersMeet enough fuel fuel' c) (room : Nat) {left : Nat}
    (hleft : left ≤ c.rest.length) :
    (groupInside (fuel + 1) room left).Meets (groupInside (fuel' + 1) room left) enough c
      (InsidePassed room left c) := by
  rw [groupInside_succ, groupInside_succ]
  refine (h.insideRound room hleft).bind fun a _ ha => ?_
  split
  · rename_i hnone
    obtain ⟨rfl, hliterals, hcursor⟩ := ha.1 hnone
    refine .pure (.inl ?_)
    rw [hliterals, hcursor]
    exact ⟨.stay, rfl⟩
  · rename_i more hmore
    obtain ⟨hfurther, hmore, hround⟩ := ha.2 more hmore
    have hlength := hfurther.length_lt
    refine (h.inside room more a.cursor hfurther (by omega)).mono fun b _ hb => ?_
    obtain ⟨hpassed, hle⟩ | hover := hround
    · have hbound := insideBound_le_of_behind hfurther.behind
        (show c.rest.length + more ≤ a.cursor.rest.length + left by omega) room
      obtain ⟨hb, hend⟩ | hb := hb
      · refine .inl ⟨Passed.seq hpassed .stay (Passes.deepen hb hbound) (), ?_⟩
        show b.cursor.rest.length + left = c.rest.length
        omega
      · exact .inr (Passed.overran hpassed (by omega) (hb.deepen hbound))
    · have hstop := hover.stop
      obtain rfl : more = 0 := by omega
      obtain ⟨hliterals, hcursor⟩ := hb.zero
      right
      rw [hliterals, hcursor, List.append_nil]
      exact hover

end ReadersMeet

/-- Every reader takes a token before it calls another, so what fuel there is beyond one for each
token ahead makes no difference. -/
theorem readersMeet (fuel fuel' : Nat) (c : Cursor) :
    ReadersMeet (c.rest.length ≤ fuel ∧ c.rest.length ≤ fuel') fuel fuel' c := by
  induction fuel generalizing fuel' c with
  | zero =>
    have hnone {d : Cursor} (hd : c.Further d) : ¬ (c.rest.length ≤ 0 ∧ c.rest.length ≤ fuel') := by
      have hlength := hd.length_lt
      omega
    constructor
    · intro room d hd
      rw [typeExpr]
      exact .unfinished (hnone hd)
    · intro room d hd
      rw [fieldList]
      exact .unfinished (hnone hd)
    · intro room left d hd _
      rw [groupInside]
      exact .unfinished (hnone hd)
  | succ fuel ih =>
    cases fuel' with
    | zero =>
      have hnone {d : Cursor} (hd : c.Further d) :
          ¬ (c.rest.length ≤ fuel + 1 ∧ c.rest.length ≤ 0) := by
        have hlength := hd.length_lt
        omega
      exact {
        type := fun room d hd => ((ih fuel d).typeExpr room).of_not (hnone hd)
        fields := fun room d hd => ((ih fuel d).fieldList room).of_not (hnone hd)
        inside := fun room left d hd hleft =>
          ((ih fuel d).groupInside room hleft).of_not (hnone hd) }
    | succ fuel' =>
      have henough {d : Cursor} (hd : c.Further d) :
          c.rest.length ≤ fuel + 1 ∧ c.rest.length ≤ fuel' + 1 →
            d.rest.length ≤ fuel ∧ d.rest.length ≤ fuel' := by
        have hlength := hd.length_lt
        omega
      exact {
        type := fun room d hd => ((ih fuel' d).typeExpr room).weaken (henough hd)
        fields := fun room d hd => ((ih fuel' d).fieldList room).weaken (henough hd)
        inside := fun room left d hd hleft =>
          ((ih fuel' d).groupInside room hleft).weaken (henough hd) }

theorem passes_fields {fuel room : Nat} {name : Option String} {last : Option TokenKind}
    {p q : Position} {ts : List Token} :
    (structType name (fieldList fuel room)).Yields
      ⟨last, ⟨.ident "struct", p⟩ :: ⟨.operator .leftBrace, q⟩ :: ts⟩ fun a =>
      a.cursor.last = some (.operator .rightBrace) ∧
        ∃ mapNamed bound literals last' r, Passes mapNamed bound .list
          ⟨some (.operator .leftBrace), ts⟩ literals
          ⟨last', ⟨.operator .rightBrace, r⟩ :: a.cursor.rest⟩ := by
  rw [yields_structType]
  intro r us hus
  cases hus
  have hmeets := (readersMeet fuel fuel ⟨none, ⟨.operator .leftBrace, q⟩ :: ts⟩).fields room _
    (.token _ _ _)
  refine hmeets.yields.mono fun a ha => ?_
  obtain ⟨last', r, hfields, hlast⟩ := ha (.inl rfl)
  exact ⟨hlast, _, _, _, last', r, hfields⟩

end Reader

end FieldOrder.Source
