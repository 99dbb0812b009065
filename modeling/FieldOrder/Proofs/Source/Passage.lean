import FieldOrder.Proofs.Source.Yields
import Mathlib.Data.Bool.Basic

/-! The ways in which readers get from one place to another. Whatever a reader of types or type
declarations reads, it passes over the tokens in a few ways only: token by token, over brackets and
what is inside them, over square brackets without looking inside, or over a struct literal, of which
it keeps a note. What holds of all readers follows from this. -/
namespace FieldOrder.Source

/-! ### Places further on -/

def Cursor.Behind (c d : Cursor) : Prop :=
  c = d ∨ ∃ before t, c.rest = before ++ t :: d.rest ∧ d.last = some t.kind

namespace Cursor.Behind

variable {c d e : Cursor}

theorem refl (c : Cursor) : c.Behind c := .inl rfl

theorem suffix (h : c.Behind d) : d.rest <:+ c.rest := by
  obtain rfl | ⟨before, t, hrest, _⟩ := h
  · exact List.suffix_rfl
  · exact ⟨before ++ [t], by simp [hrest]⟩

theorem trans (h : c.Behind d) (h' : d.Behind e) : c.Behind e := by
  obtain rfl | ⟨before, t, hrest, hlast⟩ := h'
  · exact h
  · obtain ⟨pre, hpre⟩ := h.suffix
    exact .inr ⟨pre ++ before, t, by simp [← hpre, hrest], hlast⟩

theorem token (last : Option TokenKind) (t : Token) (ts : List Token) :
    Cursor.Behind ⟨last, t :: ts⟩ ⟨some t.kind, ts⟩ := .inr ⟨[], t, rfl, rfl⟩

theorem skip (c : Cursor) : c.Behind c.skip := by
  obtain ⟨last, _ | ⟨t, ts⟩⟩ := c
  · exact .refl _
  · exact .token last t ts

theorem advance (n : Nat) (c : Cursor) : c.Behind (c.advance n) := by
  induction n generalizing c with
  | zero => exact .refl c
  | succ n ih => exact (Cursor.Behind.skip c).trans (ih c.skip)

theorem skipIf (c : Cursor) (kind : TokenKind) :
    c.Behind (if c.rest.head?.map (·.kind) = some kind then c.skip else c) := by
  split
  · exact .skip c
  · exact .refl c

end Cursor.Behind

/-- The second place is strictly further on, and behind the token in front of it. -/
def Cursor.Further (c d : Cursor) : Prop :=
  ∃ before t, c.rest = before ++ t :: d.rest ∧ d.last = some t.kind

namespace Cursor.Further

variable {c d e : Cursor}

theorem behind (h : c.Further d) : c.Behind d := .inr h

theorem of_rest {t : Token} {ts : List Token} (h : c.rest = t :: ts) :
    c.Further ⟨some t.kind, ts⟩ := ⟨[], t, h, rfl⟩

theorem token (last : Option TokenKind) (t : Token) (ts : List Token) :
    Cursor.Further ⟨last, t :: ts⟩ ⟨some t.kind, ts⟩ := of_rest rfl

theorem skip {t : Token} {ts : List Token} (h : c.rest = t :: ts) : c.Further c.skip :=
  Cursor.skip_of_rest h ▸ of_rest h

theorem trans (h : c.Further d) (h' : d.Behind e) : c.Further e := by
  obtain ⟨before, t, hrest, hlast⟩ := h
  obtain rfl | ⟨between, u, hrest', hlast'⟩ := h'
  · exact ⟨before, t, hrest, hlast⟩
  · exact ⟨before ++ t :: between, u, by simp [hrest, hrest'], hlast'⟩

theorem length_lt (h : c.Further d) : d.rest.length < c.rest.length := by
  obtain ⟨before, t, hrest, -⟩ := h
  rw [hrest, List.length_append, List.length_cons]
  omega

end Cursor.Further

theorem Cursor.Behind.further {c d e : Cursor} (h : c.Behind d) (h' : d.Further e) :
    c.Further e := by
  obtain rfl | h := h
  · exact h'
  · exact Cursor.Further.trans h h'.behind

/-! ### What stands ahead -/

def StructAhead (ts : List Token) : Prop :=
  ∃ p q rest, ts = ⟨.ident "struct", p⟩ :: ⟨.operator .leftBrace, q⟩ :: rest

/-- The place of a struct literal, from its keyword on. -/
def LiteralAt (p : Position) (place : List Token) : Prop :=
  ∃ q after, place = ⟨.ident "struct", p⟩ :: ⟨.operator .leftBrace, q⟩ :: after

def BraceAhead (ts : List Token) : Prop := ts.head?.map (·.kind) = some (.operator .leftBrace)

theorem StructAhead.braceAhead {t : Token} {ts : List Token} (h : StructAhead (t :: ts)) :
    BraceAhead ts := by
  obtain ⟨p, q, rest, heq⟩ := h
  cases heq
  rfl

def Operator.isBracket : Operator → Bool
  | .leftParen | .leftBracket | .leftBrace | .rightParen | .rightBracket | .rightBrace => true
  | _ => false

def TokenKind.isBracket : TokenKind → Bool
  | .operator op => op.isBracket
  | _ => false

def TokenKind.startsType : TokenKind → Bool
  | .ident _ => true
  | .operator op => op ∈ [Operator.star, .arrow, .leftBracket, .leftParen]
  | _ => false

/-- Can the right-hand side of a declaration, with the sign of an alias or without, start here? -/
def startsRightSide : List Token → Bool
  | [] => false
  | t :: _ => t.kind.startsType || t.kind == .operator .assign

theorem startsRightSide_of_startsType {ts us : List Token} {t : Token} (hts : ts = t :: us)
    (h : t.kind.startsType = true) : startsRightSide ts = true := by
  rw [hts, startsRightSide, h, Bool.true_or]

theorem not_braceAhead_of_startsRightSide {ts : List Token} (h : startsRightSide ts = true) :
    ¬ BraceAhead ts := by
  intro hbrace
  obtain ⟨p, us, rfl⟩ := head_eq_some hbrace
  cases h

/-- What comes after the square brackets that the tokens stand in, if they are closed in the way of
a parameter list, and if they are closed in the way of an array length. -/
def behindBrackets (ts : List Token) : List (List Token) :=
  ((splitGroup .leftBracket .rightBracket 0 ts).map (·.2)).toList ++
    ((lengthTokens? 0 ts).map fun length => ts.drop (length.length + 1)).toList

theorem exists_of_mem_behindBrackets {ts rest : List Token} (h : rest ∈ behindBrackets ts) :
    ∃ inside p, ts = inside ++ ⟨.operator .rightBracket, p⟩ :: rest := by
  simp only [behindBrackets, List.mem_append, Option.mem_toList, Option.map_eq_some_iff] at h
  obtain ⟨⟨inside, after⟩, hsplit, rfl⟩ | ⟨length, hlength, rfl⟩ := h
  · obtain ⟨p, rfl⟩ := splitGroup_eq_some hsplit
    exact ⟨inside, p, rfl⟩
  · obtain ⟨p, rest, rfl⟩ := lengthTokens?_eq_some hlength
    exact ⟨length, p, by simp⟩

theorem Cursor.Behind.brackets {ts rest : List Token} (h : rest ∈ behindBrackets ts)
    (last : Option TokenKind) (p : Position) :
    Cursor.Behind ⟨last, ⟨.operator .leftBracket, p⟩ :: ts⟩
      ⟨some (.operator .rightBracket), rest⟩ := by
  obtain ⟨inside, q, rfl⟩ := exists_of_mem_behindBrackets h
  exact .inr ⟨_ :: inside, _, rfl, rfl⟩

/-! ### Type arguments of embedded fields -/

def typeArguments? : List Token → Option (List Token × List Token)
  | ⟨.ident _, _⟩ :: ⟨.operator .leftBracket, p⟩ :: ts
  | ⟨.ident _, _⟩ :: ⟨.operator .dot, _⟩ :: ⟨.ident _, _⟩ :: ⟨.operator .leftBracket, p⟩ :: ts =>
    group? (⟨.operator .leftBracket, p⟩ :: ts)
  | _ => none

def embeddedArguments? (ts : List Token) : Option (List Token × List Token) :=
  match ts with
  | ⟨.operator .star, _⟩ :: ts => typeArguments? ts
  | ts => if Reader.isEmbedded ts then typeArguments? ts else none

/-- A field starts behind an opening brace or a semicolon. -/
def startsField (last : Option TokenKind) : Bool :=
  last == some (.operator .leftBrace) || last == some .semicolon

/-- The place `n` tokens before the end of the file is in the type arguments of an embedded field
that starts here or further on. -/
def inArguments (n : Nat) : Option TokenKind → List Token → Bool
  | _, [] => false
  | last, t :: ts =>
    (startsField last && (embeddedArguments? (t :: ts)).any fun group =>
      decide (group.2.length + 1 < n ∧ n ≤ group.1.length + group.2.length + 1)) ||
    inArguments n (some t.kind) ts

theorem inArguments_of_behind {n : Nat} {c d : Cursor} (h : c.Behind d)
    (hd : inArguments n d.last d.rest = true) : inArguments n c.last c.rest = true := by
  obtain rfl | ⟨before, t, hrest, hlast⟩ := h
  · exact hd
  · rw [hlast] at hd
    rw [hrest]
    generalize c.last = last
    clear hrest
    induction before generalizing last with
    | nil => simp [inArguments, hd]
    | cons s before ih => simp [inArguments, ih (some s.kind)]

theorem inArguments_of_embedded {n : Nat} {c : Cursor} (hstart : startsField c.last = true)
    {inside after : List Token} (h : embeddedArguments? c.rest = some (inside, after))
    (hafter : after.length + 1 < n) (hinside : n ≤ inside.length + after.length + 1) :
    inArguments n c.last c.rest = true := by
  obtain ⟨last, _ | ⟨t, ts⟩⟩ := c
  · cases h
  · simp only [inArguments, hstart, h, Option.any_some, hafter, hinside, and_self, decide_true,
      Bool.and_self, Bool.true_or]

/-- How many literals may be nested in one another behind a place among the fields of a struct,
starting with one at the place `n` tokens before the end of the file. -/
def fieldBound (room : Nat) (c : Cursor) (n : Nat) : Nat :=
  room + (inArguments n c.last c.rest).toNat

theorem fieldBound_le (room : Nat) (c : Cursor) (n : Nat) : fieldBound room c n ≤ room + 1 :=
  Nat.add_le_add_left (Bool.toNat_le _) room

theorem le_fieldBound (room : Nat) (c : Cursor) (n : Nat) : room ≤ fieldBound room c n :=
  Nat.le_add_right _ _

theorem fieldBound_le_of_behind {c d : Cursor} (h : c.Behind d) (room n : Nat) :
    fieldBound room d n ≤ fieldBound room c n := by
  refine Nat.add_le_add_left (Bool.toNat_le_toNat fun hd => ?_) room
  exact inArguments_of_behind h hd

/-- Inside the group one level more than among the fields. -/
def groupBound (room : Nat) (c : Cursor) (group : Option (List Token × List Token)) (n : Nat) :
    Nat :=
  if group.any fun g => decide (g.2.length + 1 < n ∧ n ≤ g.1.length + g.2.length + 1) then room + 1
  else fieldBound room c n

theorem groupBound_le (room : Nat) (c : Cursor) (group : Option (List Token × List Token))
    (n : Nat) : groupBound room c group n ≤ room + 1 := by
  unfold groupBound
  split
  · exact Nat.le_refl _
  · exact fieldBound_le room c n

theorem fieldBound_le_groupBound (room : Nat) (c : Cursor)
    (group : Option (List Token × List Token)) (n : Nat) :
    fieldBound room c n ≤ groupBound room c group n := by
  unfold groupBound
  split
  · exact fieldBound_le room c n
  · exact Nat.le_refl _

theorem groupBound_le_of_behind {c d : Cursor} (h : c.Behind d) (room : Nat)
    (group : Option (List Token × List Token)) (n : Nat) :
    groupBound room d group n ≤ groupBound room c group n := by
  unfold groupBound
  split
  · exact Nat.le_refl _
  · exact fieldBound_le_of_behind h room n

theorem groupBound_embedded {c : Cursor} (h : startsField c.last = true) (room n : Nat) :
    groupBound room c (embeddedArguments? c.rest) n = fieldBound room c n := by
  unfold groupBound
  split
  · rename_i hany
    obtain ⟨⟨inside, after⟩, hsome, hn⟩ := (Option.any_eq_true _ _).mp hany
    obtain ⟨hafter, hinside⟩ := of_decide_eq_true hn
    simp [fieldBound, inArguments_of_embedded h hsome hafter hinside]
  · rfl

/-- One level more than among the fields for what starts within a number of tokens. -/
def insideBound (room : Nat) (c : Cursor) (left n : Nat) : Nat :=
  if c.rest.length < n + left ∧ n ≤ c.rest.length then room + 1 else fieldBound room c n

theorem insideBound_le (room : Nat) (c : Cursor) (left n : Nat) :
    insideBound room c left n ≤ room + 1 := by
  unfold insideBound
  split
  · exact Nat.le_refl _
  · exact fieldBound_le room c n

theorem fieldBound_le_insideBound (room : Nat) (c : Cursor) (left n : Nat) :
    fieldBound room c n ≤ insideBound room c left n := by
  unfold insideBound
  split
  · exact fieldBound_le room c n
  · exact Nat.le_refl _

theorem insideBound_le_of_behind {c d : Cursor} (h : c.Behind d) {left left' : Nat}
    (hleft : c.rest.length + left' ≤ d.rest.length + left) (room n : Nat) :
    insideBound room d left' n ≤ insideBound room c left n := by
  have hlength := h.suffix.length_le
  by_cases hn : d.rest.length < n + left' ∧ n ≤ d.rest.length
  · rw [insideBound, insideBound, if_pos hn, if_pos (by omega)]
  · rw [insideBound, if_neg hn]
    exact (fieldBound_le_of_behind h room n).trans (fieldBound_le_insideBound room c left n)

theorem insideBound_le_groupBound {c : Cursor} {inside after : List Token}
    (h : group? c.rest = some (inside, after)) (room n : Nat) :
    insideBound room c.skip inside.length n ≤ groupBound room c (group? c.rest) n := by
  obtain ⟨op, p, closing, q, hrest⟩ := group?_eq_some h
  have hlength : c.skip.rest.length = inside.length + after.length + 1 := by
    rw [Cursor.skip_of_rest hrest, List.length_append, List.length_cons, Nat.add_assoc]
  by_cases hn : c.skip.rest.length < n + inside.length ∧ n ≤ c.skip.rest.length
  · have hin : after.length + 1 < n ∧ n ≤ inside.length + after.length + 1 := by omega
    rw [insideBound, if_pos hn, groupBound, h, Option.any_some, decide_eq_true hin, if_pos rfl]
  · rw [insideBound, if_neg hn]
    exact (fieldBound_le_of_behind (.skip c) room n).trans (fieldBound_le_groupBound room c _ n)

/-! ### Ways -/

/-- The ways through a type, through a list of fields or declarations, and through the inside of a
group. -/
inductive Way where
  | type
  | list
  | group

/-- Tokens that are passed over one by one: in a group all of them, elsewhere no brackets, and in a
type no semicolons. -/
def Way.allows : Way → TokenKind → Bool
  | .group, _ => true
  | .list, kind => !kind.isBracket
  | .type, .semicolon => false
  | .type, kind => !kind.isBracket

/-- The ways from one place to another, with the struct literals noted on the way. A literal is
passed over token by token only behind a dot or a closing brace. Square brackets that are not looked
into have a type behind them, and stand behind the word `map` only where this is a name. `bound`
says how many literals may be nested in one another that start with the one at a place. -/
inductive Passes (mapNamed : Prop) :
    (bound : Nat → Nat) → Way → Cursor → List StructLiteral → Cursor → Prop
  | stay {bound : Nat → Nat} {way : Way} {c : Cursor} : Passes mapNamed bound way c [] c
  | token {bound : Nat → Nat} {way : Way} {last : Option TokenKind} {t : Token} {ts : List Token}
    (hallows : way.allows t.kind = true)
    (h : StructAhead (t :: ts) →
      last = some (.operator .dot) ∨ last = some (.operator .rightBrace)) :
    Passes mapNamed bound way ⟨last, t :: ts⟩ [] ⟨some t.kind, ts⟩
  | brackets {bound : Nat → Nat} {way : Way} {last : Option TokenKind} {p : Position}
    {ts rest : List Token} (hrest : rest ∈ behindBrackets ts)
    (hstart : startsRightSide rest = true) (hmap : last = some (.ident "map") → mapNamed) :
    Passes mapNamed bound way ⟨last, ⟨.operator .leftBracket, p⟩ :: ts⟩ []
      ⟨some (.operator .rightBracket), rest⟩
  | enclosed {bound : Nat → Nat} {way : Way} {last last' : Option TokenKind}
    {op closing : Operator} {p q : Position} {ts rest : List Token}
    {literals : List StructLiteral} (hop : op.closing? = some closing)
    (h : Passes mapNamed bound .list ⟨some (.operator op), ts⟩ literals
      ⟨last', ⟨.operator closing, q⟩ :: rest⟩) :
    Passes mapNamed bound way ⟨last, ⟨.operator op, p⟩ :: ts⟩ literals
      ⟨some (.operator closing), rest⟩
  | group {bound : Nat → Nat} {way : Way} {last last' : Option TokenKind} {op closing : Operator}
    {p q : Position} {ts inside after : List Token} {literals : List StructLiteral}
    (hgroup : group? (⟨.operator op, p⟩ :: ts) = some (inside, after))
    (h : Passes mapNamed bound .group ⟨some (.operator op), ts⟩ literals
      ⟨last', ⟨.operator closing, q⟩ :: after⟩) :
    Passes mapNamed bound way ⟨last, ⟨.operator op, p⟩ :: ts⟩ literals
      ⟨some (.operator closing), after⟩
  -- A literal that starts inside a group and goes on beyond it, and one more token.
  | beyond {bound : Nat → Nat} {way : Way} {last : Option TokenKind} {op : Operator} {p : Position}
    {ts inside after : List Token} {literals others : List StructLiteral} {d e : Cursor}
    (hgroup : group? (⟨.operator op, p⟩ :: ts) = some (inside, after))
    (h : Passes mapNamed bound .group ⟨some (.operator op), ts⟩ literals d)
    (hd : after.length < d.rest.length) (h' : Passes mapNamed bound .type d others e)
    (he : e.rest.length ≤ after.length) (hlast : e.last = some (.operator .rightBrace)) :
    Passes mapNamed bound way ⟨last, ⟨.operator op, p⟩ :: ts⟩ (literals ++ others) e.skip
  -- The fields of the literal are those that are read behind its opening brace.
  | literal {bound : Nat → Nat} {way : Way} {last last' : Option TokenKind} {p q r : Position}
    {ts rest : List Token} {literals : List StructLiteral} {name : Option String}
    {decls : List (FieldDecl WrittenType)} {fuel room : Nat}
    (hread : Reader.fieldList fuel room ⟨some (.operator .leftBrace), ts⟩ =
      .ok ⟨decls, literals, ⟨some (.operator .rightBrace), rest⟩⟩)
    (h : Passes mapNamed (fieldBound room ⟨some (.operator .leftBrace), ts⟩) .list
      ⟨some (.operator .leftBrace), ts⟩ literals ⟨last', ⟨.operator .rightBrace, r⟩ :: rest⟩)
    (hself : room + 1 ≤ bound (ts.length + 2))
    (hinner : ∀ n, fieldBound room ⟨some (.operator .leftBrace), ts⟩ n ≤ bound n) :
    Passes mapNamed bound way ⟨last, ⟨.ident "struct", p⟩ :: ⟨.operator .leftBrace, q⟩ :: ts⟩
      (⟨p, name, decls⟩ :: literals) ⟨some (.operator .rightBrace), rest⟩
  | trans {bound : Nat → Nat} {way : Way} {c d e : Cursor} {literals others : List StructLiteral}
    (h : Passes mapNamed bound way c literals d) (h' : Passes mapNamed bound way d others e) :
    Passes mapNamed bound way c (literals ++ others) e

namespace Passes

variable {mapNamed : Prop} {bound : Nat → Nat} {way : Way} {c d : Cursor}
  {literals : List StructLiteral}

theorem mono {other : Prop} (h : Passes mapNamed bound way c literals d) (hm : mapNamed → other) :
    Passes other bound way c literals d := by
  induction h with
  | stay => exact .stay
  | token hallows h => exact .token hallows h
  | brackets hrest hstart hmap => exact .brackets hrest hstart (hm ∘ hmap)
  | enclosed hop _ ih => exact .enclosed hop ih
  | group hgroup _ ih => exact .group hgroup ih
  | beyond hgroup _ hd _ he hlast ih ih' => exact .beyond hgroup ih hd ih' he hlast
  | literal hread _ hself hinner ih => exact .literal hread ih hself hinner
  | trans _ _ ih ih' => exact .trans ih ih'

theorem deepen {wider : Nat → Nat} (h : Passes mapNamed bound way c literals d)
    (hle : ∀ n, bound n ≤ wider n) : Passes mapNamed wider way c literals d := by
  induction h with
  | stay => exact .stay
  | token hallows h => exact .token hallows h
  | brackets hrest hstart hmap => exact .brackets hrest hstart hmap
  | enclosed hop _ ih => exact .enclosed hop (ih hle)
  | group hgroup _ ih => exact .group hgroup (ih hle)
  | beyond hgroup _ hd _ he hlast ih ih' => exact .beyond hgroup (ih hle) hd (ih' hle) he hlast
  | literal hread h hself hinner =>
    exact .literal hread h (hself.trans (hle _)) fun n => (hinner n).trans (hle n)
  | trans _ _ ih ih' => exact .trans (ih hle) (ih' hle)

theorem widen {other : Way} (h : Passes mapNamed bound way c literals d)
    (hother : ∀ kind, way.allows kind = true → other.allows kind = true) :
    Passes mapNamed bound other c literals d := by
  induction h with
  | stay => exact .stay
  | token hallows h => exact .token (hother _ hallows) h
  | brackets hrest hstart hmap => exact .brackets hrest hstart hmap
  | enclosed hop h => exact .enclosed hop h
  | group hgroup h => exact .group hgroup h
  | beyond hgroup h hd h' he hlast => exact .beyond hgroup h hd h' he hlast
  | literal hread h hself hinner => exact .literal hread h hself hinner
  | trans _ _ ih ih' => exact .trans (ih hother) (ih' hother)

theorem inList (h : Passes mapNamed bound .type c literals d) :
    Passes mapNamed bound .list c literals d := by
  refine h.widen fun kind hallows => ?_
  cases kind with
  | semicolon => rfl
  | _ => exact hallows

theorem inGroup (h : Passes mapNamed bound way c literals d) :
    Passes mapNamed bound .group c literals d :=
  h.widen fun _ _ => rfl

theorem behind (h : Passes mapNamed bound way c literals d) : c.Behind d := by
  induction h with
  | stay => exact .refl _
  | token => exact .token _ _ _
  | brackets hrest => exact .brackets hrest _ _
  | enclosed _ _ ih => exact ((Cursor.Behind.token _ _ _).trans ih).trans (.token _ _ _)
  | group _ _ ih => exact ((Cursor.Behind.token _ _ _).trans ih).trans (.token _ _ _)
  | beyond _ _ _ _ _ _ ih ih' =>
    exact (((Cursor.Behind.token _ _ _).trans ih).trans ih').trans (.skip _)
  | literal _ _ _ _ ih =>
    exact (((Cursor.Behind.token _ _ _).trans (.token _ _ _)).trans ih).trans (.token _ _ _)
  | trans _ _ ih ih' => exact ih.trans ih'

theorem suffix (h : Passes mapNamed bound way c literals d) : d.rest <:+ c.rest := h.behind.suffix

/-- Every literal that is noted on the way stands there. -/
theorem literalAt (h : Passes mapNamed bound way c literals d) {l : StructLiteral}
    (hl : l ∈ literals) :
    ∃ place, LiteralAt l.position place ∧ place <:+ c.rest ∧ d.rest.length < place.length := by
  induction h with
  | stay => cases hl
  | token => cases hl
  | brackets => cases hl
  | enclosed _ _ ih =>
    obtain ⟨place, hplace, hsuffix, hlength⟩ := ih hl
    exact ⟨place, hplace, hsuffix.trans (List.suffix_cons _ _), Nat.lt_of_succ_lt hlength⟩
  | group _ _ ih =>
    obtain ⟨place, hplace, hsuffix, hlength⟩ := ih hl
    exact ⟨place, hplace, hsuffix.trans (List.suffix_cons _ _), Nat.lt_of_succ_lt hlength⟩
  | @beyond bound way last op p ts inside after literals others d e hgroup h hd h' he hlast ih
    ih' =>
    have hskip : e.skip.rest.length ≤ e.rest.length := (Cursor.Behind.skip e).suffix.length_le
    obtain hl | hl := List.mem_append.mp hl
    · obtain ⟨place, hplace, hsuffix, hlength⟩ := ih hl
      have hle : e.rest.length ≤ d.rest.length := h'.suffix.length_le
      exact ⟨place, hplace, hsuffix.trans (List.suffix_cons _ _), by omega⟩
    · obtain ⟨place, hplace, hsuffix, hlength⟩ := ih' hl
      exact ⟨place, hplace, (hsuffix.trans h.suffix).trans (List.suffix_cons _ _), by omega⟩
  | literal _ h _ _ ih =>
    have hle := h.suffix.length_le
    obtain rfl | hl := List.mem_cons.mp hl
    · simp only [List.length_cons] at hle
      exact ⟨_, ⟨_, _, rfl⟩, List.suffix_rfl, by simp only [List.length_cons]; omega⟩
    · obtain ⟨place, hplace, hsuffix, hlength⟩ := ih hl
      exact ⟨place, hplace, (hsuffix.trans (List.suffix_cons _ _)).trans (List.suffix_cons _ _),
        Nat.lt_of_succ_lt hlength⟩
  | trans h h' ih ih' =>
    obtain hl | hl := List.mem_append.mp hl
    · obtain ⟨place, hplace, hsuffix, hlength⟩ := ih hl
      exact ⟨place, hplace, hsuffix, Nat.lt_of_le_of_lt h'.suffix.length_le hlength⟩
    · obtain ⟨place, hplace, hsuffix, hlength⟩ := ih' hl
      exact ⟨place, hplace, hsuffix.trans h.suffix, hlength⟩

theorem eq_of_length_le (h : Passes mapNamed bound way c literals d)
    (hd : c.rest.length ≤ d.rest.length) : literals = [] ∧ d = c := by
  constructor
  · refine List.eq_nil_iff_forall_not_mem.mpr fun l hl => ?_
    obtain ⟨place, -, hsuffix, hlength⟩ := h.literalAt hl
    have hle := hsuffix.length_le
    omega
  · obtain heq | hfurther := h.behind
    · exact heq.symm
    · exact absurd (Cursor.Further.length_lt hfurther) (Nat.not_lt_of_le hd)

theorem of_rest {t : Token} {ts : List Token} (hc : c.rest = t :: ts)
    (hallows : way.allows t.kind = true) (h : StructAhead c.rest →
      c.last = some (.operator .dot) ∨ c.last = some (.operator .rightBrace)) :
    Passes mapNamed bound way c [] ⟨some t.kind, ts⟩ := by
  obtain ⟨last, _⟩ := c
  cases hc
  exact token hallows h

theorem plain {kind : TokenKind} {p : Position} {ts : List Token} (hc : c.rest = ⟨kind, p⟩ :: ts)
    (h : kind ≠ .ident "struct") (hallows : way.allows kind = true) :
    Passes mapNamed bound way c [] ⟨some kind, ts⟩ := by
  refine of_rest hc hallows fun hstruct => ?_
  obtain ⟨p, q, rest, heq⟩ := hc ▸ hstruct
  cases heq
  exact absurd rfl h

theorem skipIf {kind : TokenKind} (h : kind ≠ .ident "struct") (hallows : way.allows kind = true) :
    Passes mapNamed bound way c []
      (if c.rest.head?.map (·.kind) = some kind then c.skip else c) := by
  split
  · rename_i hkind
    obtain ⟨p, ts, hrest⟩ := head_eq_some hkind
    rw [Cursor.skip_of_rest hrest]
    exact plain hrest h hallows
  · exact .stay

end Passes

end FieldOrder.Source
