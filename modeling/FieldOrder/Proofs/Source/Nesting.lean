import FieldOrder.Proofs.Source.Passage

/-! Brackets that are properly nested. Readers count brackets of one shape at a time, or of two
shapes with one counter. On tokens that are properly nested this comes to the same, and no reader
gets out of the brackets that it starts in. -/
namespace FieldOrder.Source

inductive Balanced : List Token → Prop
  | nil : Balanced []
  | plain {t : Token} {ts : List Token} (ht : t.kind.isBracket = false) (hts : Balanced ts) :
    Balanced (t :: ts)
  | group {op closing : Operator} {p q : Position} {inside after : List Token}
    (hop : op.closing? = some closing) (hinside : Balanced inside) (hafter : Balanced after) :
    Balanced (⟨.operator op, p⟩ :: (inside ++ ⟨.operator closing, q⟩ :: after))

theorem isBracket_of_closing? {op closing : Operator} (h : op.closing? = some closing) :
    op.isBracket = true ∧ closing.isBracket = true ∧ closing.closing? = none := by
  cases op <;> cases h <;> exact ⟨rfl, rfl, rfl⟩

def Way.Stops (way : Way) (ts : List Token) : Prop :=
  ∀ t ∈ ts.head?, way.allows t.kind = false ∧ ∀ op closing, Operator.closing? op = some closing →
    t.kind ≠ .operator op

theorem Way.stops_closing {way : Way} (hway : way ≠ .group) {op closing : Operator}
    (hop : op.closing? = some closing) (q : Position) (ts : List Token) :
    way.Stops (⟨.operator closing, q⟩ :: ts) := by
  intro t ht
  cases ht
  obtain ⟨-, hbracket, hnone⟩ := isBracket_of_closing? hop
  have hkind : TokenKind.isBracket (.operator closing) = true := hbracket
  refine ⟨?_, ?_⟩
  · cases way with
    | group => exact absurd rfl hway
    | list => simp [Way.allows, hkind]
    | type => simp [Way.allows, hkind]
  · intro op' closing' hop' heq
    cases heq
    exact absurd (hnone.symm.trans hop') (by simp)

theorem Way.stops_semicolon (q : Position) (ts : List Token) :
    Way.type.Stops (⟨.semicolon, q⟩ :: ts) := by
  intro t ht
  cases ht
  exact ⟨rfl, by simp⟩

theorem Way.allows_ident (way : Way) (name : String) : way.allows (.ident name) = true := by
  cases way <;> rfl

theorem Way.isBracket_of_allows {way : Way} (hway : way ≠ .group) {kind : TokenKind}
    (h : way.allows kind = true) : kind.isBracket = false := by
  unfold Way.allows at h
  split at h
  · exact absurd rfl hway
  · simpa using h
  · cases h
  · simpa using h

theorem closing?_of_isBracket {op : Operator} (h : op.isBracket = true) :
    ∃ opening closing, opening.closing? = some closing ∧ (op = opening ∨ op = closing) := by
  unfold Operator.isBracket at h
  split at h
  · exact ⟨.leftParen, .rightParen, rfl, .inl rfl⟩
  · exact ⟨.leftBracket, .rightBracket, rfl, .inl rfl⟩
  · exact ⟨.leftBrace, .rightBrace, rfl, .inl rfl⟩
  · exact ⟨.leftParen, .rightParen, rfl, .inr rfl⟩
  · exact ⟨.leftBracket, .rightBracket, rfl, .inr rfl⟩
  · exact ⟨.leftBrace, .rightBrace, rfl, .inr rfl⟩
  · cases h

theorem closing?_inj {op other closing : Operator} (h : op.closing? = some closing)
    (h' : other.closing? = some closing) : op = other := by
  cases op <;> cases h <;> cases other <;> simp_all [Operator.closing?]

theorem Balanced.not_closing {closing : Operator} {q : Position} {ts : List Token}
    (h : Balanced (⟨.operator closing, q⟩ :: ts)) {op : Operator} : op.closing? ≠ some closing := by
  intro hop
  obtain ⟨_, hbracket, hnone⟩ := isBracket_of_closing? hop
  cases h with
  | plain ht => exact absurd (ht.symm.trans hbracket) (by simp)
  | group hop' => exact absurd (hnone.symm.trans hop') (by simp)

section SplitGroup

variable {op closing : Operator} (ts : List Token) (level : Nat)

theorem splitGroup_other {t : Token} (hopen : t.kind ≠ .operator op)
    (hclose : t.kind ≠ .operator closing) :
    splitGroup op closing level (t :: ts) =
      (splitGroup op closing level ts).map fun (inside, after) => (t :: inside, after) := by
  simp [splitGroup, hopen, hclose]

theorem splitGroup_open (hop : op.closing? = some closing) (p : Position) :
    splitGroup op closing level (⟨.operator op, p⟩ :: ts) =
      (splitGroup op closing (level + 1) ts).map
        fun (inside, after) => (⟨.operator op, p⟩ :: inside, after) := by
  have hne : op ≠ closing := by
    rintro rfl
    exact absurd (hop.symm.trans (isBracket_of_closing? hop).2.2) (by simp)
  simp [splitGroup, hne]

theorem splitGroup_close (q : Position) :
    splitGroup op closing (level + 1) (⟨.operator closing, q⟩ :: ts) =
      (splitGroup op closing level ts).map
        fun (inside, after) => (⟨.operator closing, q⟩ :: inside, after) := by
  simp [splitGroup]

end SplitGroup

theorem splitGroup_append {op closing : Operator} (hop : op.closing? = some closing)
    {u : List Token} (hu : Balanced u) (v : List Token) (level : Nat) :
    splitGroup op closing level (u ++ v) =
      (splitGroup op closing level v).map fun (inside, after) => (u ++ inside, after) := by
  obtain ⟨hopen, hclose, hnone⟩ := isBracket_of_closing? hop
  induction hu generalizing level v with
  | nil => simp
  | @plain t ts ht hts ih =>
    have hne {op : Operator} (hbracket : op.isBracket = true) : t.kind ≠ .operator op := by
      intro heq
      rw [heq] at ht
      exact absurd (ht.symm.trans hbracket) (by simp)
    rw [List.cons_append, splitGroup_other _ _ (hne hopen) (hne hclose), ih]
    simp [Function.comp_def]
  | @group op' closing' p q inside after hop' hinside hafter ih ih' =>
    obtain ⟨_, _, hnone'⟩ := isBracket_of_closing? hop'
    simp only [List.cons_append, List.append_assoc]
    by_cases heq : op' = op
    · subst heq
      cases hop.symm.trans hop'
      rw [splitGroup_open _ _ hop, ih, splitGroup_close, ih']
      simp [Function.comp_def]
    · have hop'closing : op' ≠ closing := by
        rintro rfl
        exact absurd (hnone.symm.trans hop') (by simp)
      have hclosing'op : closing' ≠ op := by
        rintro rfl
        exact absurd (hnone'.symm.trans hop) (by simp)
      have hclosing' : closing' ≠ closing := by
        rintro rfl
        exact heq (closing?_inj hop' hop)
      rw [splitGroup_other _ _ (by simpa using heq) (by simpa using hop'closing), ih,
        splitGroup_other _ _ (by simpa using hclosing'op) (by simpa using hclosing'), ih']
      simp [Function.comp_def]

theorem splitGroup_balanced {op closing : Operator} (hop : op.closing? = some closing)
    {inside : List Token} (h : Balanced inside) (q : Position) (after : List Token) :
    splitGroup op closing 0 (inside ++ ⟨.operator closing, q⟩ :: after) = some (inside, after) := by
  simp [splitGroup_append hop h, splitGroup]

theorem group?_balanced {op closing : Operator} (hop : op.closing? = some closing)
    {inside : List Token} (h : Balanced inside) (p q : Position) (after : List Token) :
    group? (⟨.operator op, p⟩ :: (inside ++ ⟨.operator closing, q⟩ :: after)) =
      some (inside, after) := by
  simp [group?, hop, splitGroup_balanced hop h]

theorem lengthTokens?_plain {t : Token} (ht : t.kind.isBracket = false) (ts : List Token)
    (level : Int) :
    lengthTokens? level (t :: ts) = (lengthTokens? level ts).map (t :: ·) := by
  rw [lengthTokens?, if_neg]
  · split <;> simp_all [TokenKind.isBracket, Operator.isBracket]
  · rintro ⟨hclose, -⟩
    rw [hclose] at ht
    cases ht

theorem lengthTokens?_append {u : List Token} (hu : Balanced u) (v : List Token) {level : Int}
    (hlevel : 0 ≤ level) : lengthTokens? level (u ++ v) = (lengthTokens? level v).map (u ++ ·) := by
  induction hu generalizing level v with
  | nil => simp
  | plain ht _ ih =>
    rw [List.cons_append, lengthTokens?_plain ht, ih v hlevel]
    simp [Function.comp_def]
  | @group op closing p q inside after hop hinside hafter ih ih' =>
    have hsucc : level + 1 ≠ 0 := by omega
    have hinner (v : List Token) := ih v (show 0 ≤ level + 1 by omega)
    -- A bracket inside is met at a level above zero, or is a brace.
    cases op <;> cases hop
    · simp [lengthTokens?, hinner, ih' v hlevel, Function.comp_def]
    · simp [lengthTokens?, hinner, hsucc, ih' v hlevel, Function.comp_def]
    · simp [lengthTokens?, ih _ hlevel, ih' v hlevel, Function.comp_def]

theorem eq_of_mem_behindBrackets {inside rest after : List Token} (h : Balanced inside)
    {q : Position}
    (hrest : rest ∈ behindBrackets (inside ++ ⟨.operator .rightBracket, q⟩ :: after)) :
    rest = after := by
  have hlength : lengthTokens? 0 (inside ++ ⟨.operator .rightBracket, q⟩ :: after) =
    some inside := by
    simp [lengthTokens?_append h, lengthTokens?]
  have hop : Operator.closing? .leftBracket = some .rightBracket := rfl
  simpa [behindBrackets, splitGroup_balanced hop h, hlength] using hrest

theorem Balanced.skip {way : Way} {t : Token} {ts u v : List Token} (hway : way ≠ .group)
    (ht : way.allows t.kind = true) (hu : Balanced u) (hv : way.Stops v) (h : t :: ts = u ++ v) :
    ∃ u', Balanced u' ∧ ts = u' ++ v := by
  cases hu with
  | nil =>
    obtain rfl : t :: ts = v := h
    exact absurd (ht.symm.trans (hv t rfl).1) (by simp)
  | plain _ hus =>
    obtain ⟨rfl, rfl⟩ := List.cons.inj h
    exact ⟨_, hus, rfl⟩
  | group hop =>
    obtain ⟨rfl, -⟩ := List.cons.inj h
    exact absurd ((Way.isBracket_of_allows hway ht).symm.trans (isBracket_of_closing? hop).1)
      (by simp)

theorem Balanced.split {way : Way} {op closing : Operator} (hop : op.closing? = some closing)
    {p : Position} {ts u v : List Token} (hu : Balanced u) (hv : way.Stops v)
    (h : ⟨.operator op, p⟩ :: ts = u ++ v) :
    ∃ inside q after, Balanced inside ∧ Balanced after ∧
      u = ⟨.operator op, p⟩ :: (inside ++ ⟨.operator closing, q⟩ :: after) ∧
      ts = inside ++ ⟨.operator closing, q⟩ :: (after ++ v) := by
  cases hu with
  | nil =>
    obtain rfl : v = _ := h.symm
    exact absurd rfl ((hv _ rfl).2 op closing hop)
  | plain ht =>
    cases h
    exact absurd (ht.symm.trans (isBracket_of_closing? hop).1) (by simp)
  | @group op' closing' p' q inside after hop' hinside hafter =>
    simp only [List.cons_append, List.append_assoc, List.cons.injEq] at h
    obtain ⟨heq, rfl⟩ := h
    cases heq
    cases hop.symm.trans hop'
    exact ⟨inside, q, after, hinside, hafter, rfl, rfl⟩

/-- A place in front of `v`, inside brackets that are still to be closed, the innermost first. -/
inductive Nested (v : List Token) : List Operator → List Token → Prop
  | base {u : List Token} (hu : Balanced u) : Nested v [] (u ++ v)
  | inner {op closing : Operator} {q : Position} {stack : List Operator} {u ts : List Token}
    (hop : op.closing? = some closing) (hu : Balanced u) (h : Nested v stack ts) :
    Nested v (closing :: stack) (u ++ ⟨.operator closing, q⟩ :: ts)

namespace Nested

variable {way : Way} {v ts : List Token} {stack : List Operator}

theorem suffix (h : Nested v stack ts) : v <:+ ts := by
  induction h with
  | base => exact List.suffix_append _ _
  | inner _ _ _ ih => exact (ih.trans (List.suffix_cons _ _)).trans (List.suffix_append _ _)

theorem eq_nil (h : Nested v stack ts) (hts : ts = v) : stack = [] := by
  cases h with
  | base => rfl
  | inner hop hu h =>
    have hle := h.suffix.length_le
    have hlength := congrArg List.length hts
    simp only [List.length_append, List.length_cons] at hlength
    omega

/-- The tokens up to the next closing bracket can be exchanged. -/
theorem split (hway : way ≠ .group) (hv : way.Stops v) (h : Nested v stack ts) :
    ∃ u w, ts = u ++ w ∧ Balanced u ∧ way.Stops w ∧ v <:+ w ∧
      ∀ u', Balanced u' → Nested v stack (u' ++ w) := by
  cases h with
  | @base u hu => exact ⟨u, v, rfl, hu, hv, List.suffix_rfl, fun _ => .base⟩
  | @inner op closing q stack u ts hop hu h =>
    exact ⟨u, ⟨.operator closing, q⟩ :: ts, rfl, hu, Way.stops_closing hway hop q ts,
      h.suffix.trans (List.suffix_cons _ _), fun _ hu' => .inner hop hu' h⟩

theorem enclose {op closing : Operator} (hop : op.closing? = some closing) {q : Position}
    {after : List Token} (hafter : Balanced after)
    (h : Nested (⟨.operator closing, q⟩ :: (after ++ v)) stack ts) :
    Nested v (stack ++ [closing]) ts := by
  induction h with
  | base hu => exact .inner hop hu (.base hafter)
  | inner hop' hu _ ih => exact .inner hop' hu ih

theorem next {t : Token} (ht : t.kind.isBracket = false) (h : Nested v stack (t :: ts)) :
    (stack = [] ∧ v = t :: ts) ∨ Nested v stack ts := by
  generalize heq : t :: ts = us at h
  cases h with
  | base hu =>
    cases hu with
    | nil => exact .inl ⟨rfl, rfl⟩
    | plain _ hu =>
      cases heq
      exact .inr (.base hu)
    | group hop =>
      cases heq
      exact absurd (ht.symm.trans (isBracket_of_closing? hop).1) (by simp)
  | inner hop hu h =>
    cases hu with
    | nil =>
      cases heq
      exact absurd (ht.symm.trans (isBracket_of_closing? hop).2.1) (by simp)
    | plain _ hu =>
      cases heq
      exact .inr (.inner hop hu h)
    | group hop' =>
      cases heq
      exact absurd (ht.symm.trans (isBracket_of_closing? hop').1) (by simp)

theorem skip {t : Token} (hway : way ≠ .group) (ht : way.allows t.kind = true) (hv : way.Stops v)
    (h : Nested v stack (t :: ts)) : Nested v stack ts := by
  refine (h.next (Way.isBracket_of_allows hway ht)).resolve_left ?_
  rintro ⟨-, rfl⟩
  exact absurd (ht.symm.trans (hv t rfl).1) (by simp)

theorem push {op closing : Operator} (hop : op.closing? = some closing) {p : Position}
    (hway : way ≠ .group) (hv : way.Stops v) (h : Nested v stack (⟨.operator op, p⟩ :: ts)) :
    Nested v (closing :: stack) ts := by
  obtain ⟨u, w, heq, hu, hw, -, hnested⟩ := h.split hway hv
  obtain ⟨inside, q, after, hinside, hafter, -, rfl⟩ := hu.split hop hw heq
  exact .inner hop hinside (hnested after hafter)

theorem pop {op closing : Operator} (hop : op.closing? = some closing) {q : Position}
    (h : Nested v stack (⟨.operator closing, q⟩ :: ts)) (hne : ⟨.operator closing, q⟩ :: ts ≠ v) :
    ∃ stack', stack = closing :: stack' ∧ Nested v stack' ts := by
  generalize heq : ⟨.operator closing, q⟩ :: ts = us at h
  cases h with
  | @base u hu =>
    cases u with
    | nil => exact absurd heq hne
    | cons t u =>
      cases heq
      exact absurd hop hu.not_closing
  | @inner op' closing' q' stack u us hop' hu h =>
    cases u with
    | nil =>
      cases heq
      exact ⟨stack, rfl, h⟩
    | cons t u =>
      cases heq
      exact absurd hop hu.not_closing

end Nested

theorem Balanced.nested {x v y : List Token} (hx : Balanced x) (hy : y <:+ x ++ v)
    (hlength : v.length ≤ y.length) : ∃ stack, Nested v stack y := by
  induction hx generalizing v with
  | nil =>
    obtain rfl := hy.eq_of_length (Nat.le_antisymm hy.length_le hlength)
    exact ⟨[], .base .nil⟩
  | @plain t ts ht hts ih =>
    obtain rfl | hsuffix := List.suffix_cons_iff.mp hy
    · exact ⟨[], .base (.plain ht hts)⟩
    · exact ih hsuffix hlength
  | @group op closing p q inside after hop hinside hafter ih ih' =>
    simp only [List.cons_append, List.append_assoc] at hy
    obtain rfl | hsuffix := List.suffix_cons_iff.mp hy
    · exact ⟨[], by simpa using Nested.base (v := v) (.group (p := p) (q := q) hop hinside hafter)⟩
    · obtain hlt | hle := Nat.lt_or_ge y.length (⟨.operator closing, q⟩ :: (after ++ v)).length
      · have hrest := List.suffix_of_suffix_length_le hsuffix (List.suffix_append inside _) hlt.le
        obtain rfl | hafter' := List.suffix_cons_iff.mp hrest
        · exact absurd hlt (Nat.lt_irrefl _)
        · exact ih' hafter' hlength
      · obtain ⟨stack, hstack⟩ := ih hsuffix hle
        exact ⟨_, hstack.enclose hop hafter⟩

theorem Balanced.eq_nil_of_closing {closing op : Operator} (hop : op.closing? = some closing)
    {q r : Position} {u rest after : List Token} (hu : Balanced u)
    (h : ⟨.operator closing, q⟩ :: rest = u ++ ⟨.operator closing, r⟩ :: after) : rest = after := by
  cases u with
  | nil =>
    cases h
    rfl
  | cons t u =>
    cases h
    exact absurd hop hu.not_closing

/-- The group that is found by counting brackets of one shape is the one that is properly nested. -/
theorem Balanced.group?_eq {way : Way} {op : Operator} {p : Position}
    {ts u v inside after : List Token}
    (hu : Balanced u) (hv : way.Stops v) (h : ⟨.operator op, p⟩ :: ts = u ++ v)
    (hgroup : group? (⟨.operator op, p⟩ :: ts) = some (inside, after)) :
    ∃ u', after = u' ++ v ∧ Balanced u' ∧ Balanced inside ∧
      ∃ closing q, op.closing? = some closing ∧ ts = inside ++ ⟨.operator closing, q⟩ :: after := by
  obtain ⟨closing, hop, -⟩ := Option.bind_eq_some_iff.mp hgroup
  obtain ⟨inside', q, after', hinside, hafter, -, rfl⟩ := hu.split hop hv h
  rw [group?_balanced hop hinside] at hgroup
  cases hgroup
  exact ⟨after', rfl, hafter, hinside, closing, q, hop, rfl⟩

/-- No reader gets out of the brackets that it starts in, and no reader of a type passes over the
semicolon behind it. -/
theorem Passes.balanced {mapNamed : Prop} {bound : Nat → Nat} {way : Way} {c d : Cursor}
    {literals : List StructLiteral} (h : Passes mapNamed bound way c literals d)
    (hway : way ≠ .group) {u v : List Token}
    (hc : c.rest = u ++ v) (hu : Balanced u) (hv : way.Stops v) :
    ∃ u', d.rest = u' ++ v ∧ Balanced u' := by
  induction h generalizing u v with
  | stay => exact ⟨u, hc, hu⟩
  | token hallows =>
    obtain ⟨u', hu', rfl⟩ := hu.skip hway hallows hv hc
    exact ⟨u', rfl, hu'⟩
  | brackets hrest =>
    have hop : Operator.closing? .leftBracket = some .rightBracket := rfl
    obtain ⟨inside, q, after, hinside, hafter, -, rfl⟩ := hu.split hop hv hc
    exact ⟨after, eq_of_mem_behindBrackets hinside hrest, hafter⟩
  | enclosed hop h ih =>
    obtain ⟨inside, q, after, hinside, hafter, -, rfl⟩ := hu.split hop hv hc
    obtain ⟨u', hrest, hu'⟩ := ih (by simp) rfl hinside (Way.stops_closing (by simp) hop q _)
    exact ⟨after, hu'.eq_nil_of_closing hop hrest, hafter⟩
  | group hgroup h ih =>
    obtain ⟨u', rfl, hu', -⟩ := hu.group?_eq hv hc hgroup
    exact ⟨u', rfl, hu'⟩
  | @beyond bound way last op p ts inside after literals others d e hgroup h hd h' he hlast ih
    ih' =>
    -- Where the literal starts, brackets are open that are closed at the end of the group at the
    -- latest.
    obtain ⟨u', rfl, hu', hinside, closing, q, hop, rfl⟩ := hu.group?_eq hv hc hgroup
    have hlist : Way.type ≠ .group := by simp
    obtain ⟨stack, hnested⟩ := hinside.nested h.suffix hd
    obtain ⟨x, w, hx, hbalanced, hstops, hsuffix, -⟩ :=
      hnested.split hlist (Way.stops_closing hlist hop q _)
    obtain ⟨x', hx', -⟩ := ih' hlist hx hbalanced hstops
    have hle := hsuffix.length_le
    rw [hx', List.length_append] at he
    simp only [List.length_cons] at hle
    omega
  | literal _ h _ _ ih =>
    have hop : Operator.closing? .leftBrace = some .rightBrace := rfl
    obtain ⟨u', hu', hbrace⟩ := hu.skip hway (Way.allows_ident _ "struct") hv hc
    obtain ⟨inside, q, after, hinside, hafter, -, rfl⟩ := hu'.split hop hv hbrace
    obtain ⟨u', hrest, hu'⟩ := ih (by simp) rfl hinside (Way.stops_closing (by simp) hop q _)
    exact ⟨after, hu'.eq_nil_of_closing hop hrest, hafter⟩
  | trans h h' ih ih' =>
    obtain ⟨u', hd, hu'⟩ := ih hway hc hu hv
    exact ih' hway hd hu' hv

theorem Nested.passes {mapNamed : Prop} {bound : Nat → Nat} {way : Way} {v : List Token}
    {stack : List Operator} {c d : Cursor} {literals : List StructLiteral}
    (h : Nested v stack c.rest) (hway : way ≠ .group) (hv : way.Stops v)
    (hd : Passes mapNamed bound way c literals d) : Nested v stack d.rest := by
  obtain ⟨u, w, heq, hu, hw, -, hnested⟩ := h.split hway hv
  obtain ⟨u', hrest, hu'⟩ := hd.balanced hway heq hu hw
  exact hrest ▸ hnested u' hu'

end FieldOrder.Source
