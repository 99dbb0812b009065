import FieldOrder.Proofs.Source.LocalTypes
import FieldOrder.Proofs.Source.Nesting
import FieldOrder.Proofs.Source.RoundTrip
import FieldOrder.Proofs.Source.Spans

/-! How deep struct literals are nested in one another. Types are nested no deeper than the limit
allows, but the type arguments of embedded fields are not counted: there structs can be nested to
any depth. -/
namespace FieldOrder.Source

open Reader

def holders (spans : List Span) (inner : Span) : List Span :=
  spans.filter fun outer => decide (outer.Holds inner)

namespace Arranged

variable {bound : Nat → Nat} {c d : Cursor} {spans : List Span} {inner : Span}

theorem holders_sublist (h : Arranged bound c d spans) (hinner : inner ∈ spans) :
    (holders spans inner ++ [inner]).Sublist spans := by
  obtain ⟨before, after, rfl⟩ := List.append_of_mem hinner
  have hlater : ∀ s ∈ inner :: after, ¬ s.Holds inner := by
    intro s hs hholds
    have hlt := hholds.2
    obtain rfl | hs := List.mem_cons.mp hs
    · exact absurd hlt (Nat.lt_irrefl _)
    · have hafter := (List.pairwise_cons.mp (List.pairwise_append.mp h.ordered).2.1).1 s hs
      exact absurd hlt (Nat.lt_asymm hafter)
  have hnone : (inner :: after).filter (fun outer => decide (outer.Holds inner)) = [] :=
    List.filter_eq_nil_iff.mpr fun s hs => by simpa using hlater s hs
  rw [holders, List.filter_append, hnone, List.append_nil]
  exact List.filter_sublist.append (List.singleton_sublist.mpr List.mem_cons_self)

theorem pairwise_holders (h : Arranged bound c d spans) (inner : Span) :
    (holders spans inner ++ [inner]).Pairwise Span.Holds := by
  have hholds {s : Span} (hs : s ∈ holders spans inner) : s.Holds inner := by
    simpa using (List.mem_filter.mp hs).2
  refine List.pairwise_append.mpr ⟨?_, List.pairwise_singleton _ _, fun s hs t ht => ?_⟩
  · refine (h.ordered.filter _).imp_of_mem fun hs ht hlt => ?_
    exact ⟨(hholds hs).1.trans (hholds ht).2, hlt⟩
  · obtain rfl := List.mem_singleton.mp ht
    exact hholds hs

theorem length_holders_le {limit : Nat} (h : Arranged (fun _ => limit + 1) c d spans)
    (hinner : inner ∈ spans) :
    (holders spans inner).length ≤ limit + argumentLinks (holders spans inner ++ [inner]) := by
  have hsublist := h.holders_sublist hinner
  have hpairwise := h.pairwise_holders inner
  have hlength : (holders spans inner ++ [inner]).length = (holders spans inner).length + 1 := by
    simp
  generalize holders spans inner ++ [inner] = chain at hsublist hpairwise hlength
  cases chain with
  | nil => cases hlength
  | cons s chain =>
    have hle := h.shallow s chain hsublist hpairwise
    rw [List.length_cons] at hlength
    omega

end Arranged

def SpansOf (literals : List StructLiteral) (tokens : List Token) (spans : List Span) : Prop :=
  List.Forall₂ StructLiteral.ReadAt literals spans ∧ ∀ s ∈ spans, s.place <:+ tokens

/-- The literals have spans among the tokens, each of which holds those behind it, and the keywords
are more than `low` tokens before the end. -/
def Stacked (literals : List StructLiteral) (low : Nat) (tokens : List Token) : Prop :=
  ∃ spans, SpansOf literals tokens spans ∧ spans.Pairwise Span.Holds ∧
    ∀ s ∈ spans, low < s.place.length

theorem Stacked.literal {fuel room low : Nat} {p q : Position} {ts tokens : List Token}
    {name : Option String}
    {a : Reading (List (FieldDecl WrittenType))} (h : Stacked a.literals a.cursor.rest.length ts)
    (hread : fieldList fuel room ⟨some (.operator .leftBrace), ts⟩ = .ok a)
    (hlow : low ≤ a.cursor.rest.length)
    (hplace : ⟨.ident "struct", p⟩ :: ⟨.operator .leftBrace, q⟩ :: ts <:+ tokens) :
    Stacked (⟨p, name, a.value⟩ :: a.literals) low tokens := by
  obtain ⟨spans, ⟨hreads, hplaces⟩, hholds, hinside⟩ := h
  let span : Span := ⟨⟨.ident "struct", p⟩ :: ⟨.operator .leftBrace, q⟩ :: ts, a.cursor.rest⟩
  have hlength : span.place.length = ts.length + 2 := rfl
  have hmeets := (readersMeet fuel fuel ⟨none, ⟨.operator .leftBrace, q⟩ :: ts⟩).fields room _
    (.token _ _ _)
  have hrest : a.cursor.rest.length ≤ ts.length :=
    (hmeets.behind a hread).suffix.length_le
  have hts : ts <:+ tokens := ((List.suffix_cons _ _).trans (List.suffix_cons _ _)).trans hplace
  refine ⟨span :: spans, ⟨.cons ⟨q, ts, fuel, room, a, rfl, hread, rfl, rfl⟩ hreads, ?_⟩, ?_, ?_⟩
  · exact List.forall_mem_cons.mpr ⟨hplace, fun s hs => (hplaces s hs).trans hts⟩
  · refine List.pairwise_cons.mpr ⟨fun s hs => ⟨hinside s hs, ?_⟩, hholds⟩
    have hle := (hplaces s hs).length_le
    omega
  · exact List.forall_mem_cons.mpr ⟨by omega, fun s hs => Nat.lt_of_le_of_lt hlow (hinside s hs)⟩

/-! ### Structs nested one in another -/

/-- How a struct stands inside another: as the type of a field, or in the type arguments of an
embedded field. -/
inductive Link where
  | field
  | argument
deriving DecidableEq, Repr

def nestKinds : List Link → List TokenKind
  | [] => []
  | .field :: links =>
    .ident "a" :: .ident "struct" :: .operator .leftBrace ::
      (nestKinds links ++ [.operator .rightBrace])
  | .argument :: links =>
    .ident "L" :: .operator .leftBracket :: (.ident "struct" :: .operator .leftBrace ::
      (nestKinds links ++ [.operator .rightBrace]) ++ [.operator .rightBracket])

inductive Nest : List Link → List Token → Prop
  | empty : Nest [] []
  | field {links : List Link} {body : List Token} (h : Nest links body) (p q r s : Position) :
    Nest (.field :: links) (⟨.ident "a", p⟩ :: ⟨.ident "struct", q⟩ :: ⟨.operator .leftBrace, r⟩ ::
      (body ++ [⟨.operator .rightBrace, s⟩]))
  | argument {links : List Link} {body : List Token} (h : Nest links body)
    (p q r s t u : Position) :
    Nest (.argument :: links)
      (⟨.ident "L", p⟩ :: ⟨.operator .leftBracket, q⟩ :: (⟨.ident "struct", r⟩ ::
      ⟨.operator .leftBrace, s⟩ :: (body ++ [⟨.operator .rightBrace, t⟩]) ++
        [⟨.operator .rightBracket, u⟩]))

theorem nest_of_kinds {links : List Link} {ts : List Token}
    (h : ts.map (·.kind) = nestKinds links) :
    Nest links ts := by
  induction links generalizing ts with
  | nil =>
    obtain rfl := List.map_eq_nil_iff.mp h
    exact .empty
  | cons link links ih =>
    cases link with
    | field =>
      simp only [nestKinds, List.map_eq_cons_iff, List.map_eq_append_iff, List.map_eq_nil_iff] at h
      obtain ⟨⟨_, p⟩, _, rfl, rfl, ⟨_, q⟩, _, rfl, rfl, ⟨_, r⟩, _, rfl, rfl, body, _, rfl, hbody,
        ⟨_, s⟩, _, rfl, rfl, rfl⟩ := h
      exact .field (ih hbody) p q r s
    | argument =>
      simp only [nestKinds, List.cons_append, List.map_eq_cons_iff, List.map_eq_append_iff,
        List.map_eq_nil_iff] at h
      obtain ⟨⟨_, p⟩, _, rfl, rfl, ⟨_, q⟩, _, rfl, rfl, ⟨_, r⟩, _, rfl, rfl, ⟨_, s⟩, _, rfl, rfl, _,
        _, rfl, ⟨body, _, rfl, hbody, ⟨_, t⟩, _, rfl, rfl, rfl⟩, ⟨_, u⟩, _, rfl, rfl, rfl⟩ := h
      exact .argument (ih hbody) p q r s t u

section Fields

variable {fuel room : Nat} {last last' : Option TokenKind} {p q r s v : Position}
  {ts tokens after rest : List Token}
  {decls : List (FieldDecl WrittenType)} {literals : List StructLiteral} {e : Failure}
  {inside : Nat → Reader Unit} {type : Reader WrittenType}

theorem fieldDecl_struct :
    fieldDecl inside type ⟨last, ⟨.ident "a", p⟩ :: ⟨.ident "struct", r⟩ :: ts⟩ =
    (type ⟨some (.ident "a"), ⟨.ident "struct", r⟩ :: ts⟩).bind fun a =>
      .ok ⟨[⟨"a", a.value⟩], a.literals, a.cursor⟩ := by
  cases htype : type ⟨some (.ident "a"), ⟨.ident "struct", r⟩ :: ts⟩ with
  | _ => simp [fieldDecl, isEmbedded, endsField, ident, moreNames, namesAhead, htype, Except.bind]

theorem fieldDecl_embedded
    (hgroup : group? (⟨.operator .leftBracket, q⟩ :: ts) = some (tokens, after))
    (hafter : endsField after = true) :
    fieldDecl inside type ⟨last, ⟨.ident "L", p⟩ :: ⟨.operator .leftBracket, q⟩ :: ts⟩ =
      (inside tokens.length ⟨some (.operator .leftBracket), ts⟩).bind fun a =>
        .ok ⟨[⟨"L", .named none "L" true⟩], a.literals, a.cursor.skip⟩ := by
  have hembedded : isEmbedded (⟨.ident "L", p⟩ :: ⟨.operator .leftBracket, q⟩ :: ts) = true := by
    simp [isEmbedded, hgroup, hafter]
  cases hinside : inside tokens.length ⟨some (.operator .leftBracket), ts⟩ with
  | _ =>
    simp [fieldDecl, hembedded, typeName, ident, bracketGroup, hgroup, hinside, skip, Except.bind]

theorem fieldList_last {name : String}
    (h : fieldDecl (groupInside (fuel + 1) room) (typeExpr (fuel + 1) room)
      ⟨last, ⟨.ident name, p⟩ :: ts⟩ =
      .ok ⟨decls, literals, ⟨last', ⟨.operator .rightBrace, v⟩ :: rest⟩⟩) :
    fieldList (fuel + 2) room ⟨last, ⟨.ident name, p⟩ :: ts⟩ =
      .ok ⟨decls, literals, ⟨some (.operator .rightBrace), rest⟩⟩ := by
  simp [fieldList, h, fieldEnd, skipIf, Except.bind]

theorem fieldList_error {name : String}
    (h : fieldDecl (groupInside fuel room) (typeExpr fuel room) ⟨last, ⟨.ident name, p⟩ :: ts⟩ =
      .error e) :
    fieldList (fuel + 1) room ⟨last, ⟨.ident name, p⟩ :: ts⟩ = .error e := by
  simp [fieldList, h, Except.bind]

theorem structType_eq_error {fields : Reader (List (FieldDecl WrittenType))} {name : Option String}
    (h : fields ⟨some (.operator .leftBrace), ts⟩ = .error e) :
    structType name fields ⟨last, ⟨.ident "struct", p⟩ :: ⟨.operator .leftBrace, q⟩ :: ts⟩ =
      .error e := by
  simp [structType, expect, h, Except.bind]

theorem fieldList_field
    (h : fieldList (fuel + 1) room ⟨some (.operator .leftBrace), ts⟩ =
      .ok ⟨decls, literals, ⟨last', ⟨.operator .rightBrace, v⟩ :: rest⟩⟩) :
    fieldList (fuel + 3) (room + 1)
      ⟨last, ⟨.ident "a", p⟩ :: ⟨.ident "struct", r⟩ :: ⟨.operator .leftBrace, s⟩ :: ts⟩ =
      .ok ⟨[⟨"a", .struct decls⟩], ⟨r, none, decls⟩ :: literals,
        ⟨some (.operator .rightBrace), rest⟩⟩ := by
  have hdecl : fieldDecl (groupInside (fuel + 2) (room + 1)) (typeExpr (fuel + 2) (room + 1)) ⟨last,
      ⟨.ident "a", p⟩ :: ⟨.ident "struct", r⟩ :: ⟨.operator .leftBrace, s⟩ :: ts⟩ =
      .ok ⟨[⟨"a", .struct decls⟩], ⟨r, none, decls⟩ :: literals,
        ⟨last', ⟨.operator .rightBrace, v⟩ :: rest⟩⟩ := by
    rw [fieldDecl_struct]
    simp [typeExpr, structType_eq_ok h, Except.bind]
  exact fieldList_last hdecl

theorem fieldList_field_error
    (h : fieldList (fuel + 1) room ⟨some (.operator .leftBrace), ts⟩ = .error e) :
    fieldList (fuel + 3) (room + 1)
      ⟨last, ⟨.ident "a", p⟩ :: ⟨.ident "struct", r⟩ :: ⟨.operator .leftBrace, s⟩ :: ts⟩ =
      .error e := by
  refine fieldList_error ?_
  rw [fieldDecl_struct]
  simp [typeExpr, structType_eq_error h, Except.bind]

theorem fieldList_field_zero :
    fieldList (fuel + 2) 0 ⟨last, ⟨.ident "a", p⟩ :: ⟨.ident "struct", r⟩ :: ts⟩ =
    .error ⟨.nestedTooDeeply, some r⟩ := by
  refine fieldList_error ?_
  rw [fieldDecl_struct]
  simp [typeExpr, fail, Except.bind]

theorem groupInside_struct {left : Nat} {a : Reading WrittenType}
    (h : structType none (fieldList (fuel + 1) room)
      ⟨last, ⟨.ident "struct", r⟩ :: ⟨.operator .leftBrace, s⟩ :: ts⟩ = .ok a)
    (hleft : ts.length + 2 = left + 1 + a.cursor.rest.length) :
    groupInside (fuel + 2) room (left + 1)
      ⟨last, ⟨.ident "struct", r⟩ :: ⟨.operator .leftBrace, s⟩ :: ts⟩ =
      .ok ⟨(), a.literals, a.cursor⟩ := by
  have htaken : left + 1 - (ts.length + 1 + 1 - a.cursor.rest.length) = 0 := by omega
  simp [groupInside, h, htaken, Except.bind]

theorem group?_struct
    (h : group? (⟨.operator .leftBracket, q⟩ :: ⟨.ident "struct", r⟩ :: ts) =
    some (tokens, after)) :
    ∃ left, tokens.length = left + 1 ∧ ts.length = left + 1 + after.length := by
  obtain ⟨_, _, _, _, heq⟩ := group?_eq_some h
  cases tokens with
  | nil => simp at heq
  | cons t tokens =>
    have hlength := congrArg List.length heq
    simp only [List.length_cons, List.length_append] at hlength
    exact ⟨tokens.length, rfl, by omega⟩

/-- A struct in the type arguments of an embedded field is read with the room that the field has. -/
theorem fieldList_argument
    (hgroup : group? (⟨.operator .leftBracket, q⟩ :: ⟨.ident "struct", r⟩ ::
      ⟨.operator .leftBrace, s⟩ :: ts) = some (tokens, ⟨.operator .rightBrace, v⟩ :: rest))
      {t : Token}
    (h : fieldList (fuel + 1) room ⟨some (.operator .leftBrace), ts⟩ =
      .ok ⟨decls, literals, ⟨last', t :: ⟨.operator .rightBrace, v⟩ :: rest⟩⟩) :
    fieldList (fuel + 3) room
      ⟨last, ⟨.ident "L", p⟩ :: ⟨.operator .leftBracket, q⟩ :: ⟨.ident "struct", r⟩ ::
        ⟨.operator .leftBrace, s⟩ :: ts⟩ =
      .ok ⟨[⟨"L", .named none "L" true⟩], ⟨r, none, decls⟩ :: literals,
        ⟨some (.operator .rightBrace), rest⟩⟩ := by
  obtain ⟨left, hleft, hlength⟩ := group?_struct hgroup
  have htaken : ts.length + 2 = left + 1 + (t :: ⟨.operator .rightBrace, v⟩ :: rest).length := by
    simp only [List.length_cons] at hlength ⊢
    omega
  have hinside := groupInside_struct (structType_eq_ok h none (some (.operator .leftBracket)) r s)
    htaken
  have hdecl : fieldDecl (groupInside (fuel + 2) room) (typeExpr (fuel + 2) room) ⟨last,
      ⟨.ident "L", p⟩ :: ⟨.operator .leftBracket, q⟩ :: ⟨.ident "struct", r⟩ ::
        ⟨.operator .leftBrace, s⟩ :: ts⟩ =
      .ok ⟨[⟨"L", .named none "L" true⟩], ⟨r, none, decls⟩ :: literals,
        ⟨some t.kind, ⟨.operator .rightBrace, v⟩ :: rest⟩⟩ := by
    rw [fieldDecl_embedded hgroup rfl, hleft, hinside]
    rfl
  exact fieldList_last hdecl

theorem fieldList_argument_error
    (hgroup : group? (⟨.operator .leftBracket, q⟩ :: ⟨.ident "struct", r⟩ ::
      ⟨.operator .leftBrace, s⟩ :: ts) = some (tokens, ⟨.operator .rightBrace, v⟩ :: rest))
    (h : fieldList (fuel + 1) room ⟨some (.operator .leftBrace), ts⟩ = .error e) :
    fieldList (fuel + 3) room
      ⟨last, ⟨.ident "L", p⟩ :: ⟨.operator .leftBracket, q⟩ :: ⟨.ident "struct", r⟩ ::
        ⟨.operator .leftBrace, s⟩ :: ts⟩ = .error e := by
  obtain ⟨left, hleft, -⟩ := group?_struct hgroup
  have hinside : groupInside (fuel + 2) room (left + 1)
    ⟨some (.operator .leftBracket), ⟨.ident "struct", r⟩ ::
      ⟨.operator .leftBrace, s⟩ :: ts⟩ = .error e := by
    simp [groupInside, structType_eq_error h, Except.bind]
  refine fieldList_error ?_
  rw [fieldDecl_embedded hgroup rfl, hleft, hinside]
  rfl

end Fields

namespace Nest

variable {links : List Link} {body : List Token}

theorem balanced (h : Nest links body) : Balanced body := by
  induction h with
  | empty => exact .nil
  | field _ p q r s ih => exact .plain rfl (.plain rfl (.group rfl ih .nil))
  | argument _ p q r s t u ih =>
    exact .plain rfl (.group rfl (.plain rfl (.group rfl ih .nil)) .nil)

theorem length_le (h : Nest links body) : 2 * links.length ≤ body.length := by
  induction h with
  | empty => exact Nat.le_refl 0
  | field | argument =>
    simp only [List.length_cons, List.length_append, List.length_nil]
    omega

theorem group?_argument (h : Nest links body) (q r s t u : Position) (after : List Token) :
    group? (⟨.operator .leftBracket, q⟩ :: ⟨.ident "struct", r⟩ :: ⟨.operator .leftBrace, s⟩ ::
        (body ++ ⟨.operator .rightBrace, t⟩ :: ⟨.operator .rightBracket, u⟩ :: after)) =
      some (⟨.ident "struct", r⟩ :: ⟨.operator .leftBrace, s⟩ ::
        (body ++ [⟨.operator .rightBrace, t⟩]), after) := by
  have hstruct : Balanced (⟨.ident "struct", r⟩ :: ⟨.operator .leftBrace, s⟩ ::
      (body ++ [⟨.operator .rightBrace, t⟩])) := .plain rfl (.group rfl h.balanced .nil)
  have hclosing : Operator.leftBracket.closing? = some .rightBracket := rfl
  simpa using group?_balanced hclosing hstruct q u after

theorem exists_reading (h : Nest links body) {fuel room : Nat} (hfuel : 2 * links.length < fuel)
    (hroom : links.count .field ≤ room) (last : Option TokenKind) (t : Position)
    (rest : List Token) :
    ∃ decls literals, fieldList fuel room ⟨last, body ++ ⟨.operator .rightBrace, t⟩ :: rest⟩ =
        .ok ⟨decls, literals, ⟨some (.operator .rightBrace), rest⟩⟩ ∧
          literals.length = links.length ∧
      Stacked literals rest.length (body ++ ⟨.operator .rightBrace, t⟩ :: rest) := by
  induction h generalizing fuel room last t rest with
  | empty =>
    obtain ⟨fuel, rfl⟩ := Nat.exists_eq_add_of_lt hfuel
    refine ⟨[], [], ?_, rfl, [], ⟨.nil, by simp⟩, .nil, by simp⟩
    simp [fieldList, Except.bind]
  | @field links body h p q r s ih =>
    rw [List.length_cons] at hfuel
    rw [List.count_cons_self] at hroom
    obtain ⟨fuel, rfl⟩ : ∃ k, fuel = k + 3 := ⟨fuel - 3, by omega⟩
    obtain ⟨room, rfl⟩ : ∃ k, room = k + 1 := ⟨room - 1, by omega⟩
    have hinner : 2 * links.length < fuel + 1 := by omega
    obtain ⟨decls, literals, hread, hcount, hstacked⟩ := ih hinner (Nat.le_of_succ_le_succ hroom)
      (some (.operator .leftBrace)) s (⟨.operator .rightBrace, t⟩ :: rest)
    simp only [List.cons_append, List.append_assoc, List.nil_append]
    refine ⟨_, _, fieldList_field hread, by simp [hcount], ?_⟩
    exact hstacked.literal hread (Nat.le_succ _) (List.suffix_cons _ _)
  | @argument links body h p q r s t' u ih =>
    rw [List.length_cons] at hfuel
    rw [List.count_cons_of_ne (by decide)] at hroom
    obtain ⟨fuel, rfl⟩ : ∃ k, fuel = k + 3 := ⟨fuel - 3, by omega⟩
    have hinner : 2 * links.length < fuel + 1 := by omega
    obtain ⟨decls, literals, hread, hcount, hstacked⟩ :=
      ih hinner hroom (some (.operator .leftBrace)) t'
      (⟨.operator .rightBracket, u⟩ :: ⟨.operator .rightBrace, t⟩ :: rest)
    have hgroup := h.group?_argument q r s t' u (⟨.operator .rightBrace, t⟩ :: rest)
    simp only [List.cons_append, List.append_assoc, List.nil_append]
    refine ⟨_, _, fieldList_argument hgroup hread, by simp [hcount], ?_⟩
    exact hstacked.literal hread (Nat.le_add_right _ 2)
      ((List.suffix_cons _ _).trans (List.suffix_cons _ _))

theorem exists_error (h : Nest links body) {fuel room : Nat} (hfuel : 2 * links.length < fuel)
    (hroom : room < links.count .field) (last : Option TokenKind) (t : Position)
    (rest : List Token) :
    ∃ p, fieldList fuel room ⟨last, body ++ ⟨.operator .rightBrace, t⟩ :: rest⟩ =
      .error ⟨.nestedTooDeeply, some p⟩ := by
  induction h generalizing fuel room last t rest with
  | empty => exact absurd hroom (Nat.not_lt_zero _)
  | @field links body h p q r s ih =>
    rw [List.length_cons] at hfuel
    rw [List.count_cons_self] at hroom
    obtain ⟨fuel, rfl⟩ : ∃ k, fuel = k + 3 := ⟨fuel - 3, by omega⟩
    simp only [List.cons_append, List.append_assoc, List.nil_append]
    cases room with
    | zero => exact ⟨q, fieldList_field_zero⟩
    | succ room =>
      have hinner : 2 * links.length < fuel + 1 := by omega
      obtain ⟨p, herror⟩ := ih hinner (Nat.lt_of_succ_lt_succ hroom) (some (.operator .leftBrace)) s
        (⟨.operator .rightBrace, t⟩ :: rest)
      exact ⟨p, fieldList_field_error herror⟩
  | @argument links body h p q r s t' u ih =>
    rw [List.length_cons] at hfuel
    rw [List.count_cons_of_ne (by decide)] at hroom
    obtain ⟨fuel, rfl⟩ : ∃ k, fuel = k + 3 := ⟨fuel - 3, by omega⟩
    have hinner : 2 * links.length < fuel + 1 := by omega
    obtain ⟨p, herror⟩ := ih hinner hroom (some (.operator .leftBrace)) t'
      (⟨.operator .rightBracket, u⟩ :: ⟨.operator .rightBrace, t⟩ :: rest)
    have hgroup := h.group?_argument q r s t' u (⟨.operator .rightBrace, t⟩ :: rest)
    simp only [List.cons_append, List.append_assoc, List.nil_append]
    exact ⟨p, fieldList_argument_error hgroup herror⟩

end Nest

/-! ### Whole files -/

def nestFile (links : List Link) : List TokenKind :=
  [.ident "package", .ident "p", .semicolon, .ident "type", .ident "T", .ident "struct",
    .operator .leftBrace] ++ (nestKinds links ++ [.operator .rightBrace, .semicolon])

section Spelled

open TokenKind

theorem spelled_nestKinds (links : List Link) {kinds : List TokenKind}
    (hkinds : ∀ pending, Spelled pending kinds)
    (pending : Bool) : Spelled pending (nestKinds links ++ kinds) := by
  induction links generalizing kinds pending with
  | nil => exact hkinds pending
  | cons link links ih =>
    cases link with
    | field =>
      simp only [nestKinds, List.cons_append, List.append_assoc, List.nil_append]
      refine spelled_word (by decide)
        (spelled_word (by decide) (spelled_operator (by decide) ?_ _) _) pending
      exact ih (spelled_rightBrace (hkinds _)) _
    | argument =>
      simp only [nestKinds, List.cons_append, List.append_assoc, List.nil_append]
      refine spelled_word (by decide) (spelled_operator (by decide) ?_ _) pending
      refine spelled_word (by decide) (spelled_operator (by decide) (ih ?_ _) _) _
      exact spelled_rightBrace (spelled_operator (by decide) (hkinds _) _)

theorem spelled_nestFile (links : List Link) : Spelled false (nestFile links) := by
  have hend : Spelled true [.semicolon] := spelled_semicolon rfl
  refine spelled_word (by decide) (spelled_word (by decide) (spelled_semicolon ?_) _) false
  refine spelled_word (by decide) (spelled_word (by decide) (spelled_word (by decide) ?_ _) _) false
  exact spelled_operator (by decide) (spelled_nestKinds links (spelled_rightBrace hend) _) _

end Spelled

namespace Outline

theorem ofTokens_struct_error {ts : List Token} {problem : Problem}
    {p q r t u v w x stop : Position}
    (h : fieldList (ts.length + 5) nestingLimit ⟨some (.operator .leftBrace), ts⟩ =
      .error ⟨problem, some x⟩)
    (package name : String) :
    ofTokens ⟨⟨.ident "package", p⟩ :: ⟨.ident package, q⟩ :: ⟨.semicolon, r⟩ ::
      ⟨.ident "type", t⟩ ::
        ⟨.ident name, u⟩ :: ⟨.ident "struct", v⟩ :: ⟨.operator .leftBrace, w⟩ :: ts, stop⟩ =
          .error ⟨x, problem⟩ := by
  have hstruct : structType (some name) (fieldList (ts.length + 5) nestingLimit)
    ⟨some (.ident name),
      ⟨.ident "struct", v⟩ :: ⟨.operator .leftBrace, w⟩ :: ts⟩ = .error ⟨problem, some x⟩ :=
        structType_eq_error h
  have htype : typeDecls (ts.length + 5)
    ⟨some (.ident "type"), ⟨.ident name, u⟩ :: ⟨.ident "struct", v⟩ ::
      ⟨.operator .leftBrace, w⟩ :: ts⟩ = .error ⟨problem, some x⟩ := by
    simp [typeDecls, typeSpec, ident, startsParameters, skipIf, hstruct, Except.bind]
  simp [ofTokens, Skim.run, Skim.step, Skim.start, Cursor.start, Cursor.skip, Reader.ident, htype,
    bind, Except.bind]

variable {links : List Link} {stream : TokenStream}

theorem ofTokens_nestFile (h : stream.tokens.map (·.kind) = nestFile links) :
    (links.count .field ≤ nestingLimit → ∃ outline, ofTokens stream = .ok outline ∧
      outline.sites.length = links.length + 1 ∧
        Stacked (outline.sites.map (·.literal)) 0 stream.tokens) ∧
    (nestingLimit < links.count .field → ∃ p, ofTokens stream = .error ⟨p, .nestedTooDeeply⟩) := by
  obtain ⟨tokens, stop⟩ := stream
  simp only [nestFile, List.cons_append, List.nil_append, List.map_eq_cons_iff,
    List.map_eq_append_iff, List.map_eq_nil_iff] at h
  obtain ⟨⟨_, p⟩, _, rfl, rfl, ⟨_, q⟩, _, rfl, rfl, ⟨_, r⟩, _, rfl, rfl, ⟨_, s⟩, _, rfl, rfl,
    ⟨_, t⟩, _, rfl, rfl, ⟨_, u⟩, _, rfl, rfl, ⟨_, v⟩, _, rfl, rfl, body, _, rfl, hbody, ⟨_, w⟩, _,
    rfl, rfl, ⟨_, x⟩, _, rfl, rfl, rfl⟩ := h
  have hnest := nest_of_kinds hbody
  have hfuel : 2 * links.length <
    (body ++ [⟨.operator .rightBrace, w⟩, (⟨.semicolon, x⟩ : Token)]).length + 5 := by
    have hle := hnest.length_le
    simp only [List.length_append]
    omega
  constructor
  · intro hroom
    obtain ⟨decls, literals, hread, hcount, hstacked⟩ :=
      hnest.exists_reading hfuel hroom (some (.operator .leftBrace)) w [⟨.semicolon, x⟩]
    refine ⟨_, ofTokens_struct hread "p" "T", by simp [hcount], ?_⟩
    have hfile {tokens : List Token} (hplace : ⟨.ident "struct", u⟩ :: ⟨.operator .leftBrace, v⟩ ::
        (body ++ [⟨.operator .rightBrace, w⟩, ⟨.semicolon, x⟩]) <:+ tokens) :
        Stacked (⟨u, some "T", decls⟩ :: literals) 0 tokens :=
          hstacked.literal hread (Nat.zero_le _) hplace
    simpa [Function.comp_def] using hfile ⟨[_, _, _, _, _], rfl⟩
  · intro hroom
    obtain ⟨y, herror⟩ := hnest.exists_error hfuel hroom (some (.operator .leftBrace)) w
      [⟨.semicolon, x⟩]
    exact ⟨y, ofTokens_struct_error herror "p" "T"⟩

/-- The sites of a file have spans, and each lies inside no more others than the limit allows, apart
from the steps that lead into type arguments of embedded fields. Those are not counted: structs
nested one in another are read exactly if no more of them than the limit allows are types of fields,
however many are type arguments, and answered with an error otherwise. -/
theorem depth_of_sites {stream : TokenStream} {outline : Outline}
    (h : ofTokens stream = .ok outline) :
    (∃ spans, SpansOf (outline.sites.map (·.literal)) stream.tokens spans ∧ ∀ inner ∈ spans,
      (holders spans inner).length ≤
        nestingLimit + argumentLinks (holders spans inner ++ [inner])) ∧
    ∀ links, ∃ source stream, TokenStream.ofSource source = .ok stream ∧
      stream.tokens.map (·.kind) = nestFile links ∧
      (links.count .field ≤ nestingLimit → ∃ outline spans, ofTokens stream = .ok outline ∧
        outline.sites.length = links.length + 1 ∧
        SpansOf (outline.sites.map (·.literal)) stream.tokens spans ∧ spans.Pairwise Span.Holds) ∧
      (nestingLimit < links.count .field →
        ∃ p, ofTokens stream = .error ⟨p, .nestedTooDeeply⟩) := by
  constructor
  · obtain ⟨d, -, spans, hread, harranged⟩ := noted_of_ofTokens h
    exact ⟨spans, ⟨hread, harranged.ahead⟩, fun inner hinner => harranged.length_holders_le hinner⟩
  · intro links
    obtain ⟨stream, hstream, hkinds⟩ := TokenKind.exists_stream (spelled_nestFile links) false
    obtain ⟨haccepted, hrejected⟩ := ofTokens_nestFile hkinds
    refine ⟨_, stream, hstream, hkinds, fun hroom => ?_, hrejected⟩
    obtain ⟨outline, houtline, hlength, spans, hspans, hholds, -⟩ := haccepted hroom
    exact ⟨outline, spans, houtline, hlength, hspans, hholds⟩

/-- Of 102 structs one in another, the innermost lies inside one too many. They are read if all are
in type arguments, and rejected if all are types of fields. -/
theorem depth_of_sites_of_replicate :
    (∃ stream outline, ofTokens stream = .ok outline ∧ outline.sites.length = 102 ∧
      ∃ spans, SpansOf (outline.sites.map (·.literal)) stream.tokens spans ∧ ∀ inner ∈ spans,
        (holders spans inner).length ≤ 100 + argumentLinks (holders spans inner ++ [inner])) ∧
    (∃ stream outline spans, stream.tokens.map (·.kind) = nestFile (List.replicate 101 .argument) ∧
      ofTokens stream = .ok outline ∧ outline.sites.length = 102 ∧
      SpansOf (outline.sites.map (·.literal)) stream.tokens spans ∧ spans.Pairwise Span.Holds) ∧
    ∃ stream p, stream.tokens.map (·.kind) = nestFile (List.replicate 101 .field) ∧
      ofTokens stream = .error ⟨p, .nestedTooDeeply⟩ := by
  obtain ⟨stream, -, hkinds⟩ :=
    TokenKind.exists_stream (spelled_nestFile (List.replicate 101 .argument)) false
  obtain ⟨outline, houtline, hlength, -⟩ := (ofTokens_nestFile hkinds).1 (by decide)
  obtain ⟨hbound, hnest⟩ := depth_of_sites houtline
  refine ⟨⟨stream, outline, houtline, hlength, hbound⟩, ?_, ?_⟩
  · obtain ⟨_, stream, -, hkinds, haccepted, -⟩ := hnest (List.replicate 101 .argument)
    obtain ⟨outline, spans, houtline, hlength, hspans, hholds⟩ := haccepted (by decide)
    exact ⟨stream, outline, spans, hkinds, houtline, hlength, hspans, hholds⟩
  · obtain ⟨_, stream, -, hkinds, -, hrejected⟩ := hnest (List.replicate 101 .field)
    obtain ⟨p, herror⟩ := hrejected (by simp [nestingLimit])
    exact ⟨stream, p, hkinds, herror⟩

end Outline

end FieldOrder.Source
