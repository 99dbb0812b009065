import FieldOrder.Proofs.Source.Nesting
import FieldOrder.Proofs.Source.Steps

/-! The headers of functions and methods, and the type parameters that are read off them. -/
namespace FieldOrder.Source

open Reader

inductive Constraint : List Token → Prop
  | nil : Constraint []
  | plain {t : Token} {ts : List Token} (ht : t.kind.isBracket = false)
    (hcomma : t.kind ≠ .operator .comma) (hts : Constraint ts) : Constraint (t :: ts)
  | group {op closing : Operator} {p q : Position} {inside after : List Token}
    (hop : op.closing? = some closing) (hinside : Balanced inside) (hafter : Constraint after) :
    Constraint (⟨.operator op, p⟩ :: (inside ++ ⟨.operator closing, q⟩ :: after))

/-- The inside of a type parameter list and the names it declares: entries between commas, each a
name with a constraint or without. -/
inductive Declares : List Token → List String → Prop
  | nil : Declares [] []
  | last {name : String} {p : Position} {constraint : List Token} (h : Constraint constraint) :
    Declares (⟨.ident name, p⟩ :: constraint) [name]
  | cons {name : String} {p q : Position} {constraint ts : List Token} {names : List String}
    (h : Constraint constraint) (hts : Declares ts names) :
    Declares (⟨.ident name, p⟩ :: (constraint ++ ⟨.operator .comma, q⟩ :: ts)) (name :: names)

theorem Constraint.balanced {ts : List Token} (h : Constraint ts) : Balanced ts := by
  induction h with
  | nil => exact .nil
  | plain ht _ _ ih => exact .plain ht ih
  | group hop hinside _ ih => exact .group hop hinside ih

theorem Balanced.append {u v : List Token} (hu : Balanced u) (hv : Balanced v) :
    Balanced (u ++ v) := by
  induction hu with
  | nil => exact hv
  | plain ht _ ih => exact .plain ht ih
  | @group op closing p q inside after hop hinside _ _ ih =>
    simpa using Balanced.group (p := p) (q := q) hop hinside ih

theorem Declares.balanced {ts : List Token} {names : List String} (h : Declares ts names) :
    Balanced ts := by
  induction h with
  | nil => exact .nil
  | last h => exact .plain rfl h.balanced
  | cons h _ ih => exact .plain rfl (h.balanced.append (.plain rfl ih))

section ParameterNames

variable (ts : List Token) (level : Int)

theorem parameterNames_plain {t : Token} (ht : t.kind.isBracket = false)
    (hcomma : level ≠ 0 ∨ t.kind ≠ .operator .comma) :
    parameterNames false level (t :: ts) = parameterNames false level ts := by
  obtain ⟨kind, p⟩ := t
  have hnext : ¬ (level = 0 ∧ kind = .operator .comma) := not_and_or.mpr hcomma
  rcases kind with name | text | _ | op | _
  · simp [parameterNames]
  · simp [parameterNames]
  · simp [parameterNames]
  · cases op <;> simp_all [parameterNames, TokenKind.isBracket, Operator.isBracket]
  · simp [parameterNames]

theorem parameterNames_open {op closing : Operator} (hop : op.closing? = some closing)
    (p : Position) :
    parameterNames false level (⟨.operator op, p⟩ :: ts) = parameterNames false (level + 1) ts := by
  cases op <;> cases hop <;> simp [parameterNames]

theorem parameterNames_close {op closing : Operator} (hop : op.closing? = some closing)
    (q : Position) :
    parameterNames false (level + 1) (⟨.operator closing, q⟩ :: ts) =
      parameterNames false level ts := by
  cases op <;> cases hop <;> simp [parameterNames]

end ParameterNames

theorem parameterNames_balanced {u : List Token} (hu : Balanced u) (v : List Token) {level : Int}
    (hlevel : 0 < level) : parameterNames false level (u ++ v) = parameterNames false level v := by
  induction hu generalizing level v with
  | nil => rfl
  | plain ht _ ih =>
    rw [List.cons_append, parameterNames_plain _ _ ht (.inl (by omega)), ih v hlevel]
  | group hop _ _ ih ih' =>
    rw [List.cons_append, List.append_assoc, List.cons_append, parameterNames_open _ _ hop,
      ih _ (by omega), parameterNames_close _ _ hop, ih' v hlevel]

theorem parameterNames_constraint {u : List Token} (hu : Constraint u) (v : List Token) :
    parameterNames false 0 (u ++ v) = parameterNames false 0 v := by
  induction hu with
  | nil => rfl
  | plain ht hcomma _ ih => rw [List.cons_append, parameterNames_plain _ _ ht (.inr hcomma), ih]
  | group hop hinside _ ih =>
    rw [List.cons_append, List.append_assoc, List.cons_append, parameterNames_open _ _ hop,
      parameterNames_balanced hinside _ (by omega), parameterNames_close _ _ hop, ih]

theorem Declares.parameterNames_eq {ts : List Token} {names : List String} (h : Declares ts names) :
    parameterNames true 0 ts = names := by
  induction h with
  | nil => rfl
  | @last name p constraint h =>
    have hrest := parameterNames_constraint h []
    simp only [List.append_nil] at hrest
    simp [parameterNames, hrest]
  | cons h _ ih => simp [parameterNames, parameterNames_constraint h, ih]

inductive TypeParameters : List Token → List String → Prop
  | none : TypeParameters [] []
  | list {inside : List Token} {names : List String} {p q : Position} (h : Declares inside names) :
    TypeParameters (⟨.operator .leftBracket, p⟩ :: (inside ++ [⟨.operator .rightBracket, q⟩])) names

inductive Receiver : List Token → List String → Prop
  | mk {name star params : List Token} {type : String} {p : Position} {names : List String}
    (hname : name = [] ∨ ∃ self q, name = [⟨.ident self, q⟩])
    (hstar : star = [] ∨ ∃ q, star = [⟨.operator .star, q⟩]) (h : TypeParameters params names) :
    Receiver (name ++ star ++ ⟨.ident type, p⟩ :: params) names

def statementWords : List String := ["package", "type", "struct", "var", "const", "import"]

/-- What stands between the keyword `func` and the parameters of a function: a receiver, if it is a
method, its name, and its type parameters. -/
inductive Header : List Token → List String → Prop
  | function {name : String} {p : Position} {params : List Token} {names : List String}
    (hname : name ∉ statementWords) (h : TypeParameters params names) :
    Header (⟨.ident name, p⟩ :: params) names
  | method {inside params : List Token} {outer names : List String} {name : String}
    {p q r : Position} (hreceiver : Receiver inside outer) (hname : name ∉ statementWords)
    (h : TypeParameters params names) :
    Header (⟨.operator .leftParen, p⟩ ::
      (inside ++ ⟨.operator .rightParen, q⟩ :: ⟨.ident name, r⟩ :: params)) (outer ++ names)

theorem TypeParameters.balanced {ts : List Token} {names : List String}
    (h : TypeParameters ts names) :
    Balanced ts := by
  cases h with
  | none => exact .nil
  | list h => exact .group rfl h.balanced .nil

theorem Receiver.balanced {ts : List Token} {names : List String} (h : Receiver ts names) :
    Balanced ts := by
  obtain ⟨rfl | ⟨self, q, rfl⟩, rfl | ⟨r, rfl⟩, h⟩ := h
  · exact .plain rfl h.balanced
  · exact .plain rfl (.plain rfl h.balanced)
  · exact .plain rfl (.plain rfl h.balanced)
  · exact .plain rfl (.plain rfl (.plain rfl h.balanced))

theorem Header.balanced {ts : List Token} {names : List String} (h : Header ts names) :
    Balanced ts := by
  cases h with
  | function _ h => exact .plain rfl h.balanced
  | method hreceiver _ h => exact .group rfl hreceiver.balanced (.plain rfl h.balanced)

namespace Reader

theorem yields_typeParameters_of_declares {inside rest : List Token} {names : List String}
    (h : Declares inside names) (last : Option TokenKind) (p q : Position) :
    typeParameters.Yields
      ⟨last, ⟨.operator .leftBracket, p⟩ :: (inside ++ ⟨.operator .rightBracket, q⟩ :: rest)⟩
      (· = ⟨names, [], ⟨some (.operator .rightBracket), rest⟩⟩) := by
  have hop : Operator.closing? .leftBracket = some .rightBracket := rfl
  simp only [typeParameters, yields_bind, yields_ahead, group?_balanced hop h.balanced p q rest,
    yields_advance, yields_pure, h.parameterNames_eq]
  rw [Cursor.advance, Cursor.skip_mk_cons, Cursor.advance_append]
  rfl

/-- The type parameters behind a name. A name without any is not passed over. -/
theorem yields_nameParameters {params rest : List Token} {names : List String}
    (h : TypeParameters params names)
    (hrest : rest.head?.map (·.kind) ≠ some (.operator .leftBracket))
    (last : Option TokenKind) (name : String) (p : Position) :
    nameParameters.Yields ⟨last, ⟨.ident name, p⟩ :: (params ++ rest)⟩ fun a => a.value = names ∧
      (a.cursor = ⟨last, ⟨.ident name, p⟩ :: rest⟩ ∨
        a.cursor = ⟨some (.operator .rightBracket), rest⟩) := by
  simp only [nameParameters, yields_bind, yields_ahead]
  cases h with
  | none =>
    have hstart : startsNameBracket (⟨.ident name, p⟩ :: rest) = false := by
      unfold startsNameBracket
      split
      · rename_i heq
        cases heq
        exact absurd rfl hrest
      · rfl
    rw [List.nil_append, if_neg (by simp [hstart])]
    simp
  | @list inside names q r h =>
    rw [if_pos (by rfl)]
    simp only [yields_bind, yields_skip, Cursor.skip_mk_cons, List.cons_append, List.append_assoc,
      List.nil_append]
    refine (yields_typeParameters_of_declares h _ q r).mono ?_
    rintro _ rfl
    exact ⟨rfl, .inr rfl⟩

theorem yields_receiverParameters {inside rest : List Token} {names : List String}
    (h : Receiver inside names) (last : Option TokenKind) (p q : Position) :
    receiverParameters.Yields
      ⟨last, ⟨.operator .leftParen, p⟩ :: (inside ++ ⟨.operator .rightParen, q⟩ :: rest)⟩
      (·.value = names) := by
  obtain ⟨hname, hstar, hparams⟩ := h
  rename_i name star params type r
  -- Behind the type's name comes an opening or the closing bracket.
  obtain ⟨op, s, tail, htail, hop⟩ : ∃ op s tail,
      params ++ ⟨.operator .rightParen, q⟩ :: rest = ⟨.operator op, s⟩ :: tail ∧ op ≠ .star := by
    cases hparams with
    | none => exact ⟨_, _, _, rfl, by simp⟩
    | list => exact ⟨_, _, _, rfl, by simp⟩
  have hvalue (last : Option TokenKind) :
      nameParameters.Yields ⟨last, ⟨.ident type, r⟩ :: ⟨.operator op, s⟩ :: tail⟩
        (·.value = names) := by
    rw [← htail]
    exact (yields_nameParameters hparams (by simp) last type r).mono fun a ha => ha.1
  simp only [receiverParameters, receiverName, yields_bind, yields_skip, Cursor.skip_mk_cons,
    yields_ahead, yields_skipIf, List.append_assoc, List.cons_append, htail]
  obtain rfl | ⟨self, t, rfl⟩ := hname
  · obtain rfl | ⟨t, rfl⟩ := hstar
    · split
      · rename_i heq
        cases heq
      · rename_i heq
        cases heq
        exact absurd rfl hop
      · simpa using hvalue _
    · simpa using hvalue _
  · obtain rfl | ⟨u, rfl⟩ := hstar
    · simpa using hvalue _
    · simpa using hvalue _

theorem yields_receiver {inside rest : List Token} {names : List String} (h : Receiver inside names)
    (last : Option TokenKind) (p q : Position) :
    receiver.Yields ⟨last, ⟨.operator .leftParen, p⟩ ::
      (inside ++ ⟨.operator .rightParen, q⟩ :: rest)⟩
      (· = ⟨names, [], ⟨some (.operator .rightParen), rest⟩⟩) := by
  have hop : Operator.closing? .leftParen = some .rightParen := rfl
  simp only [receiver, yields_bind, yields_ahead, group?_balanced hop h.balanced p q rest,
    yields_lookahead, yields_advance, yields_pure]
  rw [Cursor.advance, Cursor.skip_mk_cons, Cursor.advance_append]
  refine (yields_receiverParameters h last p q).mono fun a ha => ?_
  rw [ha]
  rfl

/-- The type parameters of a header, and where reading goes on: at the name, if it is followed by
none of its own, or at the parameters. -/
theorem yields_funcParameters {header rest : List Token} {names : List String}
    (h : Header header names)
    (hrest : rest.head?.map (·.kind) ≠ some (.operator .leftBracket)) (last : Option TokenKind) :
    funcParameters.Yields ⟨last, header ++ rest⟩ fun a => a.value = names ∧
      ((∃ name p, name ∉ statementWords ∧ (a.cursor = ⟨last, ⟨.ident name, p⟩ :: rest⟩ ∨
        a.cursor = ⟨some (.operator .rightParen), ⟨.ident name, p⟩ :: rest⟩)) ∨
        a.cursor = ⟨some (.operator .rightBracket), rest⟩) := by
  simp only [funcParameters, yields_bind, yields_peek]
  cases h with
  | @function name p params names hname h =>
    rw [if_neg (by simp)]
    simp only [yields_bind, yields_pure, List.cons_append]
    refine (yields_nameParameters h hrest last name p).mono ?_
    rintro a ⟨rfl, hcursor⟩
    refine ⟨rfl, hcursor.imp_left fun hcursor => ⟨name, p, hname, .inl hcursor⟩⟩
  | @method inside params outer names name p q r hreceiver hname h =>
    rw [if_pos (by rfl)]
    simp only [yields_bind, yields_pure, List.cons_append, List.append_assoc]
    refine (yields_receiver hreceiver last p q).mono ?_
    rintro _ rfl
    refine (yields_nameParameters h hrest _ name r).mono ?_
    rintro a ⟨rfl, hcursor⟩
    exact ⟨rfl, hcursor.imp_left fun hcursor => ⟨name, r, hname, .inr hcursor⟩⟩

section Nested

variable {v : List Token} {stack : List Operator} {c : Cursor}

theorem nested_group? (hv : Way.type.Stops v) (hc : Nested v stack c.rest)
    {inside after : List Token} (hgroup : group? c.rest = some (inside, after)) :
    Nested v stack (c.advance (inside.length + 2)).rest := by
  obtain ⟨last, rest⟩ := c
  obtain ⟨op, p, closing, q, rfl⟩ := group?_eq_some hgroup
  obtain ⟨u, w, heq, hu, hw, -, hnested⟩ := hc.split (by simp) hv
  obtain ⟨u', hafter, hu', -⟩ := hu.group?_eq hw heq hgroup
  rw [Cursor.advance, Cursor.skip_mk_cons, Cursor.advance_append]
  exact hafter ▸ hnested u' hu'

theorem nested_typeParameters (hv : Way.type.Stops v) (hc : Nested v stack c.rest) :
    typeParameters.Yields c (Nested v stack ·.cursor.rest) := by
  simp only [typeParameters, yields_bind, yields_ahead]
  split
  · rename_i inside after hgroup
    simpa using nested_group? hv hc hgroup
  · simp

theorem nested_nameParameters (hv : Way.type.Stops v) (hc : Nested v stack c.rest) :
    nameParameters.Yields c (Nested v stack ·.cursor.rest) := by
  simp only [nameParameters, yields_bind, yields_ahead, yields_ite]
  refine ⟨fun hstart => ?_, fun _ => by simpa using hc⟩
  obtain ⟨last, rest⟩ := c
  obtain ⟨name, p, ts, rfl⟩ : ∃ name p ts, rest = ⟨.ident name, p⟩ :: ts := by
    unfold startsNameBracket at hstart
    split at hstart
    · rename_i heq
      exact ⟨_, _, _, heq⟩
    · cases hstart
  rw [yields_skip, Cursor.skip_mk_cons]
  exact nested_typeParameters hv (hc.skip (by simp) rfl hv)

theorem nested_receiver (hv : Way.type.Stops v) (hc : Nested v stack c.rest) :
    receiver.Yields c (Nested v stack ·.cursor.rest) := by
  simp only [receiver, yields_bind, yields_ahead]
  split
  · rename_i inside after hgroup
    simp only [yields_bind, yields_lookahead, yields_advance, yields_pure]
    exact fun _ _ => nested_group? hv hc hgroup
  · simp

theorem nested_funcParameters (hv : Way.type.Stops v) (hc : Nested v stack c.rest) :
    funcParameters.Yields c (Nested v stack ·.cursor.rest) := by
  simp only [funcParameters, yields_bind, yields_peek]
  split
  · simp only [yields_bind, yields_pure]
    exact (nested_receiver hv hc).mono fun a ha => nested_nameParameters hv ha
  · simp only [yields_bind, yields_pure]
    exact nested_nameParameters hv hc

end Nested

end Reader

end FieldOrder.Source
