import FieldOrder.Proofs.Source.TypeReaders

/-! What the readers of type declarations and of the headers of functions do, one statement for
each. -/
namespace FieldOrder.Source

namespace Reader

variable {enough : Prop} {c : Cursor}

theorem meets_nameParameters (c : Cursor) :
    nameParameters.Meets nameParameters enough c fun _ => True := by
  refine .ahead (.ite (fun _ => .skip ?_) fun _ => .pure trivial)
  exact (meets_typeParameters c.skip).mono fun _ _ _ => trivial

theorem meets_receiverName (c : Cursor) :
    receiverName.Meets receiverName enough c fun _ => True := by
  refine .ahead ?_
  split
  · exact .of_ok rfl (.skip c) trivial
  · exact .of_ok rfl (.skip c) trivial
  · exact .pure trivial

theorem meets_receiverParameters (c : Cursor) :
    receiverParameters.Meets receiverParameters enough c fun a => c.rest ≠ [] →
      c.Further a.cursor := by
  refine .skip ((meets_receiverName c.skip).bind fun a ha _ => .skipIf ?_)
  refine (meets_nameParameters _).mono fun b hb _ hc => ?_
  obtain ⟨t, ts, hrest⟩ := List.exists_cons_of_ne_nil hc
  exact (Cursor.Further.skip hrest).trans (ha.trans ((Cursor.Behind.skipIf _ _).trans hb))

theorem meets_receiver (c : Cursor) : receiver.Meets receiver enough c fun _ => True := by
  refine .ahead ?_
  split
  · have hnames : (lookahead receiverParameters).Meets (lookahead receiverParameters) enough c
        fun _ => True := by
      refine .map (fun a => ⟨a.value, [], c⟩) ?_ rfl rfl fun _ _ => .refl c
      exact (meets_receiverParameters c).mono fun _ _ _ => trivial
    exact hnames.bind fun _ _ _ => .advance (.pure trivial)
  · exact .fail (by simp)

theorem meets_funcParameters (c : Cursor) :
    funcParameters.Meets funcParameters enough c fun _ => True := by
  refine .peek (.ite (fun _ => ?_) fun _ => ?_)
  · exact (meets_receiver c).bind fun a _ _ => .bind_pure (meets_nameParameters a.cursor)
  · exact .pure_bind (.bind_pure (meets_nameParameters c))

/-! ### Declarations -/

namespace ReadersMeet

variable {fuel fuel' : Nat}

/-- The right-hand side of a declaration, with the sign of an alias or without. A struct there does
not take up room. -/
theorem rightSide (h : ReadersMeet enough fuel fuel' c) (name : String) {d e : Cursor}
    (hd : c.Further d)
    (he : e = if d.rest.head?.map (·.kind) = some (.operator .assign) then d.skip else d)
    {p : Prop} [Decidable p] (hp : p → e.rest.head?.map (·.kind) = some (.ident "struct")) :
    (collect (if p then Reader.structType (some name) (Reader.fieldList fuel nestingLimit)
      else Reader.typeExpr fuel nestingLimit)).Meets
    (collect (if p then Reader.structType (some name) (Reader.fieldList fuel' nestingLimit)
      else Reader.typeExpr fuel' nestingLimit)) enough e fun a => a.literals = [] ∧
        startsRightSide d.rest = true ∧
        Passes (d.last = some (.ident "map") ∨ MapMisused d.rest a.value.2)
          (fun _ => nestingLimit + 1) .type d a.value.2 a.cursor := by
  have hbehind : d.Behind e := he ▸ .skipIf d _
  have htype : (if p then Reader.structType (some name) (Reader.fieldList fuel nestingLimit)
      else Reader.typeExpr fuel nestingLimit).Meets
      (if p then Reader.structType (some name) (Reader.fieldList fuel' nestingLimit)
      else Reader.typeExpr fuel' nestingLimit) enough e (TypePassed (nestingLimit + 1) e) := by
    refine .ite (fun hstruct => ?_) fun _ => ?_
    · obtain ⟨q, ts, hrest⟩ := head_eq_some (hp hstruct)
      have hmeets := (h.of_behind (hd.trans hbehind).behind).structType nestingLimit (some name)
      exact hmeets.mono fun a _ ha =>
        Passed.typePassed (ha.2.2 _ _ hrest) (insideBound_le nestingLimit e 1) hrest rfl
    · refine (h.type nestingLimit e (hd.trans hbehind)).mono fun a _ ha => ⟨ha.1, ?_⟩
      exact ha.2.deepen fun _ => Nat.le_succ nestingLimit
  refine .map (fun a => ⟨(a.value, a.literals), [], a.cursor⟩) (htype.mono fun a _ ha => ⟨rfl, ?_⟩)
    rfl rfl fun _ ha => ha
  by_cases hassign : d.rest.head?.map (·.kind) = some (.operator .assign)
  · obtain ⟨q, ts, hrest⟩ := head_eq_some hassign
    rw [if_pos hassign, Cursor.skip_of_rest hrest] at he
    subst he
    have hside : Passed (fun _ => nestingLimit + 1) .type ⟨some (.operator .assign), ts⟩ a :=
      ha.passed (fun _ => Nat.le_refl _) fun hmap => by cases hmap
    have hpassed := Passed.after (.plain hrest (by simp) rfl) hside ()
    exact ⟨by simp [hrest, startsRightSide], Passes.mono hpassed .inr⟩
  · rw [if_neg hassign] at he
    subst he
    obtain ⟨⟨t, ts, hrest, hstart⟩, hway⟩ := ha
    exact ⟨startsRightSide_of_startsType hrest hstart, hway⟩

theorem typeSpec (h : ReadersMeet enough fuel fuel' c) :
    (typeSpec fuel).Meets (typeSpec fuel') enough c fun a =>
      a.literals = [] ∧ c.Further a.cursor ∧ DeclsPassed c [a.value] a.cursor := by
  refine .ident fun name p ts hrest => ?_
  have hfirst : c.Further ⟨some (.ident name), ts⟩ := .of_rest hrest
  have hname (hts : ¬ BraceAhead ts) : Passes (name = "map") (fun _ => nestingLimit + 1) .type c []
      ⟨some (.ident name), ts⟩ := .of_rest hrest rfl fun hs => absurd (hrest ▸ hs).braceAhead hts
  refine .ahead (.ite (fun hparameters => ?_) fun _ => ?_)
  · obtain ⟨q, us, rfl⟩ := startsParameters_eq_true hparameters
    refine (meets_typeParameters _).bind fun a ha hlist => .skipIf (.peek ?_)
    obtain ⟨hnone, hlast, hmem⟩ := hlist q us rfl
    refine (h.rightSide name (hfirst.trans ha) rfl id).bind fun b hb hside => .skipIf (.pure ?_)
    obtain ⟨hnone', hstart, hside⟩ := hside
    have hbehind := (Cursor.Behind.skipIf _ _).trans (hb.trans (.skipIf _ .semicolon))
    refine ⟨by rw [hnone, hnone']; rfl, (hfirst.trans ha).trans hbehind, ?_⟩
    obtain ⟨parameters, literals, ⟨last', rest⟩⟩ := a
    cases hlast
    have hbrackets : Passes (name = "map") (fun _ => nestingLimit + 1) .type
        ⟨some (.ident name), ⟨.operator .leftBracket, q⟩ :: us⟩ []
        ⟨some (.operator .rightBracket), rest⟩ :=
      .brackets hmem hstart fun hmap => by simpa using hmap
    exact (SpecsPassed.single ((hname (by simp [BraceAhead])).trans hbrackets) (by simp)
      hside).skipIf
  · refine .pure_bind (.skipIf (.peek ?_))
    refine (h.rightSide name hfirst rfl id).bind fun b hb hside => .skipIf (.pure ?_)
    obtain ⟨hnone, hstart, hside⟩ := hside
    have hbehind := (Cursor.Behind.skipIf _ _).trans (hb.trans (.skipIf _ .semicolon))
    refine ⟨by rw [hnone]; rfl, hfirst.trans hbehind, ?_⟩
    have hfront := hname (not_braceAhead_of_startsRightSide hstart)
    exact (SpecsPassed.single hfront (by simp) hside).skipIf

theorem specRound (h : ReadersMeet enough fuel fuel' c) :
    (specRound fuel).Meets (specRound fuel') enough c fun a => c.Further a.cursor ∧
      a.literals = [] ∧
      (a.value = none → (∃ p, c.rest = ⟨.operator .rightParen, p⟩ :: a.cursor.rest) ∧
        a.cursor.last = some (.operator .rightParen)) ∧
      ∀ specs, a.value = some specs → SpecsPassed .list c specs a.cursor := by
  refine .peek ?_
  split
  · rename_i hhead
    obtain ⟨p, ts, hrest⟩ := head_eq_some hhead
    refine .skip (.pure ⟨.skip hrest, rfl, by simp, fun specs hspecs => ?_⟩)
    cases hspecs
    rw [Cursor.skip_of_rest hrest]
    exact .plain hrest (by simp) rfl
  · rename_i hhead
    obtain ⟨p, ts, hrest⟩ := head_eq_some hhead
    refine .skip (.pure ⟨.skip hrest, rfl, fun _ => ?_, by simp⟩)
    rw [Cursor.skip_of_rest hrest]
    exact ⟨⟨p, hrest⟩, rfl⟩
  · exact .fail (by simp)
  · refine .bind_pure (h.typeSpec.mono fun a _ ha => ?_)
    refine ⟨ha.2.1, ha.1, by simp, fun specs hspecs => ?_⟩
    cases hspecs
    exact ha.2.2.inList

end ReadersMeet

theorem meets_typeSpecs (fuel fuel' : Nat) (c : Cursor) :
    (typeSpecs fuel).Meets (typeSpecs fuel') (c.rest.length < fuel ∧ c.rest.length < fuel') c
      fun a => a.literals = [] ∧ a.cursor.last = some (.operator .rightParen) ∧
        ∃ last q, SpecsPassed .list c a.value
          ⟨last, ⟨.operator .rightParen, q⟩ :: a.cursor.rest⟩ := by
  induction fuel generalizing fuel' c with
  | zero =>
    rw [typeSpecs]
    exact .unfinished (by omega)
  | succ fuel ih =>
    -- The rounds, with another amount of fuel behind the first.
    have hrounds (fuel' : Nat) : (typeSpecs (fuel + 1)).Meets (typeSpecs (fuel' + 1))
        (c.rest.length < fuel + 1 ∧ c.rest.length < fuel' + 1) c fun a => a.literals = [] ∧
          a.cursor.last = some (.operator .rightParen) ∧ ∃ last q, SpecsPassed .list c a.value
            ⟨last, ⟨.operator .rightParen, q⟩ :: a.cursor.rest⟩ := by
      rw [typeSpecs_succ, typeSpecs_succ]
      refine ((readersMeet fuel fuel' c).specRound.weaken (by omega)).andOn (fun a ha hnone => ?_)
        fun a specs ha hspecs => ?_
      · obtain ⟨-, hliterals, hclosed, -⟩ := ha
        obtain ⟨⟨p, hrest⟩, hlast⟩ := hclosed hnone
        refine ⟨hliterals, hlast, c.last, p, ?_⟩
        rw [← hrest]
        exact .stay
      · obtain ⟨hfurther, hliterals, -, hround⟩ := ha
        have hlength := hfurther.length_lt
        refine ((ih fuel' a.cursor).weaken (by omega)).mono fun b _ hb => ?_
        obtain ⟨hliterals', hlast, last, q, hlater⟩ := hb
        refine ⟨by rw [hliterals, hliterals']; rfl, hlast, last, q, ?_⟩
        exact (hround specs hspecs).append hlater
    cases fuel' with
    | zero => exact (hrounds fuel).of_not (by omega)
    | succ fuel' => exact hrounds fuel'

theorem meets_typeDecls (fuel fuel' : Nat) (c : Cursor) :
    (typeDecls fuel).Meets (typeDecls fuel') (c.rest.length < fuel ∧ c.rest.length < fuel') c
      fun a => DeclsPassed c a.value a.cursor := by
  refine .peek (.ite (fun hhead => ?_) fun _ => ?_)
  · obtain ⟨last, _⟩ := c
    obtain ⟨p, ts, rfl⟩ := head_eq_some hhead
    refine .skip (((meets_typeSpecs fuel fuel' _).weaken ?_).mono fun a _ ha => ?_)
    · simp only [Cursor.skip_mk_cons, List.length_cons]
      omega
    · obtain ⟨-, hlast, last', q, ha⟩ := ha
      obtain ⟨specs, literals, ⟨_, rest⟩⟩ := a
      cases hlast
      refine ⟨_, Passes.enclosed rfl (Passes.mono ha fun hmap => ?_), .inl rfl⟩
      exact hmap.mono (List.Subset.refl _) (List.suffix_cons _ _) (List.Subset.refl _)
  · refine .bind_pure (.mono (.weaken (readersMeet fuel fuel' c).typeSpec (by omega)) ?_)
    exact fun _ _ ha => ha.2.2

end Reader

end FieldOrder.Source
