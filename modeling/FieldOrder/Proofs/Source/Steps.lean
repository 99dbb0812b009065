import FieldOrder.Proofs.Source.DeclReaders

/-! The way through a file, step by step: what one step can do, and the moves that make up a run. -/
namespace FieldOrder.Source

open Reader

namespace Skim

/-- What a step can do. -/
inductive Steps (fuel : Nat) (s : Skim) : Cursor → Skim → Cursor → Prop
  | package {last : Option TokenKind} {p q : Position} {name : String} {ts : List Token}
    (hopen : s.blocks = []) (hnone : s.outline.package.isEmpty = true) :
    Steps fuel s ⟨last, ⟨.ident "package", p⟩ :: ⟨.ident name, q⟩ :: ts⟩
      { s with outline.package := name } ⟨some (.ident name), ts⟩
  | types {last : Option TokenKind} {p : Position} {ts : List Token} {a : Reading (List TypeSpec)}
    (h : typeDecls fuel ⟨some (.ident "type"), ts⟩ = .ok a) :
    Steps fuel s ⟨last, ⟨.ident "type", p⟩ :: ts⟩ (a.value.foldl declare s) a.cursor
  | literal {c : Cursor} {a : Reading WrittenType} (hc : StructAhead c.rest)
    (h : structType none (fieldList fuel nestingLimit) c = .ok a) :
    Steps fuel s c (s.addSites a.literals s.scope) a.cursor
  | function {last : Option TokenKind} {p : Position} {ts : List Token} {a : Reading (List String)}
    (hopen : s.blocks = []) (hstart : Cursor.atStatement ⟨last, ⟨.ident "func", p⟩ :: ts⟩ = true)
    (h : funcParameters ⟨some (.ident "func"), ts⟩ = .ok a) :
    Steps fuel s ⟨last, ⟨.ident "func", p⟩ :: ts⟩ { s with parameters := a.value } a.cursor
  | clears {last : Option TokenKind} {word : String} {p : Position} {ts : List Token}
    (hword : word ∈ ["var", "const", "import"]) (hopen : s.blocks = []) :
    Steps fuel s ⟨last, ⟨.ident word, p⟩ :: ts⟩ { s with parameters := [] } ⟨some (.ident word), ts⟩
  | opens {last : Option TokenKind} {p : Position} {ts : List Token} :
    Steps fuel s ⟨last, ⟨.operator .leftBrace, p⟩ :: ts⟩ s.openBlock
      ⟨some (.operator .leftBrace), ts⟩
  | closes {last : Option TokenKind} {p : Position} {ts : List Token} {s' : Skim}
    (h : s.closeBlock? = some s') :
    Steps fuel s ⟨last, ⟨.operator .rightBrace, p⟩ :: ts⟩ s' ⟨some (.operator .rightBrace), ts⟩
  | token {last : Option TokenKind} {t : Token} {ts : List Token}
    (hopens : t.kind ≠ .operator .leftBrace) (hcloses : t.kind ≠ .operator .rightBrace)
    (hstruct : ¬ StructAhead (t :: ts))
    (hfunc : t.kind = .ident "func" → s.blocks = [] → Cursor.atStatement ⟨last, t :: ts⟩ = false)
    (hclears : ∀ word ∈ ["var", "const", "import"], t.kind = .ident word → s.blocks ≠ []) :
    Steps fuel s ⟨last, t :: ts⟩ s ⟨some t.kind, ts⟩

theorem not_structAhead {t : Token} {ts : List Token} (h : t.kind ≠ .ident "struct") :
    ¬ StructAhead (t :: ts) := by
  rintro ⟨p, q, rest, heq⟩
  cases heq
  exact h rfl

theorem steps_of_clear {fuel : Nat} {s s' : Skim} {last : Option TokenKind} {word : String}
    {p : Position} {ts : List Token} {c' : Cursor} (hword : word ∈ ["var", "const", "import"])
    (h : Except.ok (if s.blocks.isEmpty then { s with parameters := [] } else s,
      (⟨some (.ident word), ts⟩ : Cursor)) = (.ok (s', c') : Except Failure (Skim × Cursor))) :
    Steps fuel s ⟨last, ⟨.ident word, p⟩ :: ts⟩ s' c' := by
  cases h
  split
  · rename_i hopen
    exact .clears hword (List.isEmpty_iff.mp hopen)
  · rename_i hopen
    refine .token (by simp) (by simp) (not_structAhead ?_) ?_ fun _ _ _ =>
      mt List.isEmpty_iff.mpr hopen
    all_goals
      intro heq
      cases heq
      simp at hword

theorem steps_of_step {fuel : Nat} {s s' : Skim} {c c' : Cursor} (hc : c.rest ≠ [])
    (h : s.step fuel c = .ok (s', c')) : Steps fuel s c s' c' := by
  obtain ⟨last, _ | ⟨⟨kind, p⟩, ts⟩⟩ := c
  · exact absurd rfl hc
  simp only [step, Cursor.skip_mk_cons] at h
  split at h
  · -- `package`
    split at h
    · rename_i htop
      simp only [Bool.and_eq_true, List.isEmpty_iff] at htop
      obtain ⟨name, hname, heq⟩ := bind_eq_ok.mp h
      cases heq
      have hsteps : ident.Yields ⟨some (.ident "package"), ts⟩ fun a => Steps fuel s
          ⟨last, ⟨.ident "package", p⟩ :: ts⟩ { s with outline.package := a.value } a.cursor := by
        rw [yields_ident]
        rintro name q us rfl
        exact .package htop.1 htop.2
      exact hsteps name hname
    · cases h
      exact .token (by simp) (by simp) (not_structAhead (by simp)) (by simp) (by simp)
  · -- `type`
    split at h
    · obtain ⟨a, ha, heq⟩ := bind_eq_ok.mp h
      cases heq
      exact .types ha
    · obtain ⟨a, ha, heq⟩ := bind_eq_ok.mp h
      cases heq
      exact .types ha
    · cases h
      exact .token (by simp) (by simp) (not_structAhead (by simp)) (by simp) (by simp)
  · -- `struct`
    split at h
    · obtain ⟨a, ha, heq⟩ := bind_eq_ok.mp h
      cases heq
      exact .literal ⟨_, _, _, rfl⟩ ha
    · cases h
      rename_i hbrace
      refine .token (by simp) (by simp) ?_ (by simp) (by simp)
      rintro ⟨q, r, rest, heq⟩
      cases heq
      exact hbrace r rest rfl
  · -- `func`
    split at h
    · rename_i htop
      simp only [Bool.and_eq_true, List.isEmpty_iff] at htop
      obtain ⟨a, ha, heq⟩ := bind_eq_ok.mp h
      cases heq
      exact .function htop.1 htop.2 ha
    · rename_i htop
      cases h
      refine .token (by simp) (by simp) (not_structAhead (by simp)) (fun _ hopen => ?_) (by simp)
      simpa [hopen] using htop
  · exact steps_of_clear (by simp) h
  · exact steps_of_clear (by simp) h
  · exact steps_of_clear (by simp) h
  · cases h
    exact .opens
  · split at h
    · rename_i hclose
      cases h
      exact .closes hclose
    · cases h
  · rename_i hstruct hfunc hvar hconst himport hopens hcloses
    cases h
    refine .token hopens hcloses (not_structAhead hstruct) (fun heq => (hfunc heq).elim) ?_
    intro word hword heq
    simp only [List.mem_cons, List.not_mem_nil, or_false] at hword
    obtain rfl | rfl | rfl := hword
    · exact (hvar heq).elim
    · exact (hconst heq).elim
    · exact (himport heq).elim

/-- Every step takes a token at least. -/
theorem Steps.further {fuel : Nat} {s s' : Skim} {c c' : Cursor} (h : Steps fuel s c s' c') :
    c.Further c' := by
  cases h with
  | package => exact (Cursor.Further.token _ _ _).trans (.token _ _ _)
  | types h => exact (Cursor.Further.token _ _ _).trans ((meets_typeDecls fuel fuel _).behind _ h)
  | literal _ h => exact (((readersMeet fuel fuel _).structType nestingLimit none).yields _ h).1
  | @function last p ts a _ _ h =>
    have hmeets : funcParameters.Meets funcParameters True ⟨some (.ident "func"), ts⟩ _ :=
      meets_funcParameters _
    exact (Cursor.Further.token _ _ _).trans (hmeets.behind _ h)
  | clears => exact .token _ _ _
  | opens => exact .token _ _ _
  | closes => exact .token _ _ _
  | token => exact .token _ _ _

theorem Steps.behind {fuel : Nat} {s s' : Skim} {c c' : Cursor} (h : Steps fuel s c s' c') :
    c.Behind c' := h.further.behind

theorem sites_declare (s : Skim) (spec : TypeSpec) : (s.declare spec).outline.sites =
    s.outline.sites ++ spec.literals.map (⟨·, s.specScope spec⟩) := by
  obtain ⟨outline, _ | ⟨block, blocks⟩, parameters⟩ := s <;> rfl

@[simp] theorem parameters_declare (s : Skim) (spec : TypeSpec) :
    (s.declare spec).parameters = s.parameters := by
  obtain ⟨outline, _ | ⟨block, blocks⟩, parameters⟩ := s <;> rfl

@[simp] theorem parameters_foldl_declare (specs : List TypeSpec) (s : Skim) :
    (specs.foldl declare s).parameters = s.parameters := by
  induction specs generalizing s with
  | nil => rfl
  | cons spec specs ih => rw [List.foldl_cons, ih, parameters_declare]

/-- The literals of type declarations become sites, with the parameters of their own declarations in
front of those that are in scope. -/
theorem sites_foldl_declare (specs : List TypeSpec) (s : Skim) :
    ∃ sites, (specs.foldl declare s).outline.sites = s.outline.sites ++ sites ∧
      sites.map (·.literal) = specs.flatMap (·.literals) ∧
      ∀ site ∈ sites, ∃ spec ∈ specs, site.literal ∈ spec.literals ∧
        site.scope.parameters = spec.parameters ++ s.parameters := by
  induction specs generalizing s with
  | nil => exact ⟨[], by simp⟩
  | cons spec specs ih =>
    obtain ⟨sites, hsites, hliterals, hscopes⟩ := ih (s.declare spec)
    refine ⟨spec.literals.map (⟨·, s.specScope spec⟩) ++ sites, ?_, ?_, ?_⟩
    · rw [List.foldl_cons, hsites, sites_declare, List.append_assoc]
    · simp [hliterals, Function.comp_def]
    · intro site hsite
      obtain hfirst | hrest := List.mem_append.mp hsite
      · obtain ⟨literal, hmem, rfl⟩ := List.mem_map.mp hfirst
        exact ⟨spec, List.mem_cons_self, hmem, rfl⟩
      · obtain ⟨other, hmem, hliteral, hscope⟩ := hscopes site hrest
        exact ⟨other, List.mem_cons_of_mem _ hmem, hliteral, by simpa using hscope⟩

theorem sites_closeBlock? {s s' : Skim} (h : s.closeBlock? = some s') :
    s'.outline.sites = s.outline.sites := by
  unfold closeBlock? at h
  split at h
  · cases h
  · cases h
    rfl
  · cases h
    rfl

theorem Steps.sites_kept {fuel : Nat} {s s' : Skim} {c c' : Cursor} (h : Steps fuel s c s' c') :
    s.outline.sites <+: s'.outline.sites := by
  cases h with
  | types h =>
    obtain ⟨sites, hsites, -⟩ := sites_foldl_declare _ s
    exact hsites ▸ List.prefix_append _ _
  | literal => exact List.prefix_append _ _
  | closes h => rw [sites_closeBlock? h]
  | package => exact List.prefix_rfl
  | function => exact List.prefix_rfl
  | clears => exact List.prefix_rfl
  | opens => exact List.prefix_rfl
  | token => exact List.prefix_rfl

end Skim

theorem Skim.Steps.semicolon {fuel : Nat} {s s' : Skim} {last : Option TokenKind} {q : Position}
    {ts : List Token} {c' : Cursor} (h : Steps fuel s ⟨last, ⟨.semicolon, q⟩ :: ts⟩ s' c') :
    s' = s ∧ c' = ⟨some .semicolon, ts⟩ := by
  cases h with
  | literal hstruct =>
    obtain ⟨p, r, rest, heq⟩ := hstruct
    cases heq
  | token => exact ⟨rfl, rfl⟩

theorem Skim.Steps.leftBrace {fuel : Nat} {s s' : Skim} {c c' : Cursor} (h : Steps fuel s c s' c')
    {p : Position} {ts : List Token} (hc : c.rest = ⟨.operator .leftBrace, p⟩ :: ts) :
    s' = s.openBlock ∧ c'.rest = ts := by
  cases h with
  | package => cases hc
  | types => cases hc
  | literal hstruct =>
    obtain ⟨q, r, rest, hrest⟩ := hstruct
    simp [hrest] at hc
  | function => cases hc
  | clears => cases hc
  | opens =>
    cases hc
    exact ⟨rfl, rfl⟩
  | closes => cases hc
  | token hopens =>
    cases hc
    exact absurd rfl hopens

theorem Skim.Steps.func {fuel : Nat} {s s' : Skim} {c c' : Cursor} (h : Steps fuel s c s' c')
    {p : Position} {ts : List Token} (hc : c.rest = ⟨.ident "func", p⟩ :: ts)
    (hopen : s.blocks = []) (hstart : c.atStatement = true) :
    ∃ a, funcParameters ⟨some (.ident "func"), ts⟩ = .ok a ∧
      s' = { s with parameters := a.value } ∧ c' = a.cursor := by
  cases h with
  | package => simp at hc
  | types => simp at hc
  | literal hstruct =>
    obtain ⟨q, r, rest, hrest⟩ := hstruct
    simp [hrest] at hc
  | function _ _ h =>
    cases hc
    exact ⟨_, h, rfl, rfl⟩
  | clears hword =>
    cases hc
    simp at hword
  | opens => cases hc
  | closes => cases hc
  | token _ _ _ hfunc =>
    cases hc
    exact absurd (hstart.symm.trans (hfunc rfl hopen)) (by simp)

/-- One step of the way through a file: what was known and where, before it and behind it. -/
structure Move where
  skim : Skim
  cursor : Cursor
  result : Skim
  target : Cursor

namespace Skim

def moves : (fuel : Nat) → Skim → Cursor → List Move
  | _, _, ⟨_, []⟩ => []
  | 0, _, _ => []
  | fuel + 1, s, c =>
    match s.step (fuel + 1) c with
    | .ok (s', c') => ⟨s, c, s', c'⟩ :: moves fuel s' c'
    | .error _ => []

inductive Runs : Skim → Cursor → List Move → Skim → Prop
  | done {s : Skim} {last : Option TokenKind} : Runs s ⟨last, []⟩ [] s
  | step {fuel : Nat} {s s' final : Skim} {c c' : Cursor} {ms : List Move}
    (hstep : Steps fuel s c s' c') (hrun : Runs s' c' ms final) :
    Runs s c (⟨s, c, s', c'⟩ :: ms) final

theorem runs_moves {fuel : Nat} {s final : Skim} {c : Cursor} (h : run fuel s c = .ok final) :
    Runs s c (moves fuel s c) final := by
  induction fuel generalizing s c with
  | zero =>
    obtain ⟨last, _ | ⟨t, ts⟩⟩ := c
    · cases h
      exact .done
    · cases h
  | succ fuel ih =>
    obtain ⟨last, _ | ⟨t, ts⟩⟩ := c
    · cases h
      exact .done
    · obtain ⟨⟨s', c'⟩, hstep, hrun⟩ := bind_eq_ok.mp h
      rw [moves, hstep]
      · exact .step (steps_of_step (by simp) hstep) (ih hrun)
      · simp

theorem Runs.exists_cons {s final : Skim} {c : Cursor} {ms : List Move} (h : Runs s c ms final)
    (hc : c.rest ≠ []) : ∃ fuel s' c' ms', ms = ⟨s, c, s', c'⟩ :: ms' ∧ Steps fuel s c s' c' ∧
      Runs s' c' ms' final := by
  cases h with
  | done => exact absurd rfl hc
  | step hstep hrun => exact ⟨_, _, _, _, rfl, hstep, hrun⟩

theorem Runs.of_mem {s final : Skim} {c : Cursor} {ms : List Move} (h : Runs s c ms final)
    {m : Move} (hm : m ∈ ms) :
    (∃ fuel, Steps fuel m.skim m.cursor m.result m.target) ∧ m.cursor.rest <:+ c.rest := by
  induction h with
  | done => cases hm
  | @step fuel s s' final c c' ms hstep hrun ih =>
    obtain rfl | hm := List.mem_cons.mp hm
    · exact ⟨⟨fuel, hstep⟩, List.suffix_rfl⟩
    · exact ⟨(ih hm).1, (ih hm).2.trans hstep.behind.suffix⟩

/-- Each move starts at or behind the end of those before it. -/
theorem Runs.pairwise {s final : Skim} {c : Cursor} {ms : List Move} (h : Runs s c ms final) :
    ms.Pairwise fun x y => y.cursor.rest <:+ x.target.rest := by
  induction h with
  | done => exact .nil
  | step hstep hrun ih => exact List.pairwise_cons.mpr ⟨fun m hm => (hrun.of_mem hm).2, ih⟩

theorem Runs.drop {s final : Skim} {c : Cursor} {before ms : List Move}
    (h : Runs s c (before ++ ms) final) : ∃ s' c', Runs s' c' ms final := by
  induction before generalizing s c with
  | nil => exact ⟨s, c, h⟩
  | cons m before ih =>
    cases h with
    | step hstep hrun => exact ih hrun

/-- What every step keeps holds up to the place where it is given up. -/
theorem Runs.reaches {I P : Skim → Cursor → Prop}
    (hstep : ∀ {fuel s c s' c'}, Steps fuel s c s' c' → I s c → I s' c' ∨ P s' c')
    (hend : ∀ {s last}, ¬ I s ⟨last, []⟩) {s final : Skim} {c : Cursor} {ms : List Move}
    (h : Runs s c ms final) (hs : I s c ∨ P s c) :
    ∃ between rest s' c', ms = between ++ rest ∧ (∀ m ∈ between, I m.skim m.cursor) ∧ P s' c' ∧
      Runs s' c' rest final := by
  induction h with
  | @done s last => exact ⟨[], [], s, _, rfl, by simp, hs.resolve_left hend, .done⟩
  | @step fuel s s' final c c' ms hstep' hrun ih =>
    obtain hs | hs := hs
    · obtain ⟨between, rest, t, d, rfl, hbetween, ht, hrest⟩ := ih (hstep hstep' hs)
      exact ⟨_ :: between, rest, t, d, rfl, List.forall_mem_cons.mpr ⟨hs, hbetween⟩, ht, hrest⟩
    · exact ⟨[], _, s, c, rfl, by simp, hs, .step hstep' hrun⟩

theorem Runs.sites_kept {s final : Skim} {c : Cursor} {ms : List Move} (h : Runs s c ms final) :
    s.outline.sites <+: final.outline.sites := by
  induction h with
  | done => exact List.prefix_rfl
  | step hstep _ ih => exact hstep.sites_kept.trans ih

end Skim

def Outline.moves (stream : TokenStream) : List Move :=
  Skim.moves stream.tokens.length .start (.start stream.tokens)

theorem Outline.runs_of_ofTokens {stream : TokenStream} {outline : Outline}
    (h : ofTokens stream = .ok outline) :
    ∃ final, Skim.Runs .start (.start stream.tokens) (moves stream) final ∧
      final.outline = outline := by
  unfold ofTokens at h
  split at h
  · rename_i final hrun
    cases h
    exact ⟨final, Skim.runs_moves hrun, rfl⟩
  · cases h

end FieldOrder.Source
