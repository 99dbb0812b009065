import FieldOrder.Proofs.Source.Spelling
import FieldOrder.Source.TypeReader
import Mathlib.Algebra.Group.Nat.Defs

/-! Reading shapes back. In front of anything that can follow a field, the tokens of a shape are
read as the type they spell, and the struct literals met on the way are the structs inside the
shape, outermost first. As much fuel as there are tokens is enough, and two levels of nesting more
than the shape has. -/
namespace FieldOrder

namespace Source

theorem toNat_of_isDigit {c : Char} (h : c.isDigit = true) : 48 ≤ c.toNat ∧ c.toNat ≤ 57 := by
  simp only [Char.isDigit, Bool.and_eq_true, decide_eq_true_eq, ge_iff_le, UInt32.le_iff_toNat_le,
    Char.reduceVal, UInt32.reduceToNat] at h
  exact h

theorem toLower_of_isDigit {c : Char} (h : c.isDigit = true) : c.toLower = c := by
  have hupper : ¬ (c.val ≥ 'A'.val ∧ c.val ≤ 'Z'.val) := by
    have hrange := toNat_of_isDigit h
    simp only [Char.toNat] at hrange
    simp only [ge_iff_le, UInt32.le_iff_toNat_le, Char.reduceVal, UInt32.reduceToNat]
    omega
  exact dif_neg hupper

theorem foldlM_digit? {cs : List Char} (h : ∀ c ∈ cs, c.isDigit = true) (n : Nat) :
    cs.foldlM (fun n c => (Text.digit? 10 c).map (n * 10 + ·)) n =
      some (Nat.ofDigitChars 10 cs n) := by
  induction cs generalizing n with
  | nil => rfl
  | cons c cs ih =>
    have hc : c.isDigit = true := h c (by simp)
    have hlt : c.toNat - 48 < 10 := by
      have hrange := toNat_of_isDigit hc
      omega
    have hdigit : Text.digit? 10 c = some (c.toNat - '0'.toNat) := by
      simp [Text.digit?, hc, hlt]
    rw [List.foldlM_cons, hdigit, Nat.ofDigitChars_cons, ← ih (fun d hd => h d (by simp [hd])),
      Nat.mul_comm]
    rfl

theorem integer?_repr {n : Nat} (h : n < 2 ^ 64) : integer? n.repr = some n := by
  have hdigit : ∀ c ∈ Nat.toDigits 10 n, c.isDigit = true := fun c hc =>
    Nat.isDigit_of_mem_toDigits (by omega) (by omega) hc
  have hfilter : (Nat.toDigits 10 n).filter (· != '_') = Nat.toDigits 10 n := by
    rw [List.filter_eq_self]
    intro c hc
    simpa [bne] using Rule.beq_of_class (hdigit c hc) '_' (by decide)
  have hlower : (Nat.toDigits 10 n).map Char.toLower = Nat.toDigits 10 n := by
    rw [List.map_congr_left fun c hc => toLower_of_isDigit (hdigit c hc), List.map_id']
  have hdecimal : Text.unsigned? 10 (Nat.toDigits 10 n) = some n := by
    have hplus : (Nat.toDigits 10 n).head? ≠ some '+' := by
      intro hp
      have := hdigit '+' (List.mem_of_head? hp)
      contradiction
    rw [Text.unsigned?, if_neg hplus, if_neg (by simp [Nat.toDigits_ne_nil]), Text.digits?,
      foldlM_digit? hdigit, Nat.ofDigitChars_ten_toDigits, Option.filter_some,
      if_pos (by simpa using h)]
  rw [integer?, Nat.toList_repr, hfilter, hlower]
  by_cases hn : n = 0
  · rw [hn]
    rfl
  · obtain ⟨c, ds, hc, h0, -⟩ := toDigits_of_pos (Nat.pos_of_ne_zero hn)
    rw [hc] at hdecimal ⊢
    -- Every other reading of the digits takes a leading zero.
    split
    case h_5 => exact hdecimal
    all_goals
      rename_i hzero
      exact absurd (List.cons.inj hzero).1 h0

namespace Reader

variable {α β : Type}

@[simp] theorem bind_apply (r : Reader α) (f : α → Reader β) (c : Cursor) :
    (r >>= f) c = (r c).bind fun a => (f a.value a.cursor).bind fun b =>
      .ok ⟨b.value, a.literals ++ b.literals, b.cursor⟩ := rfl

@[simp] theorem pure_apply (a : α) (c : Cursor) : (pure a : Reader α) c = .ok ⟨a, [], c⟩ := rfl

@[simp] theorem discard_apply (r : Reader α) (c : Cursor) :
    (discard r : Reader Unit) c = (r c).bind fun a => .ok ⟨(), a.literals, a.cursor⟩ := by
  show (r >>= fun _ => pure ()) c = _
  simp [Except.bind]

@[simp] theorem ahead_apply (c : Cursor) : ahead c = .ok ⟨c.rest, [], c⟩ := rfl

@[simp] theorem peek_cons (last : Option TokenKind) (t : Token) (ts : List Token) :
    peek ⟨last, t :: ts⟩ = .ok ⟨some t.kind, [], ⟨last, t :: ts⟩⟩ := rfl

@[simp] theorem skip_cons (last : Option TokenKind) (t : Token) (ts : List Token) :
    skip ⟨last, t :: ts⟩ = .ok ⟨(), [], ⟨some t.kind, ts⟩⟩ := rfl

@[simp] theorem advance_zero (c : Cursor) : advance 0 c = .ok ⟨(), [], c⟩ := rfl

@[simp] theorem enclose_apply (literal : α → StructLiteral) (r : Reader α) (c : Cursor) :
    enclose literal r c = (r c).bind fun a =>
      .ok ⟨a.value, literal a.value :: a.literals, a.cursor⟩ :=
  rfl

@[simp] theorem collect_apply (r : Reader α) (c : Cursor) :
    collect r c = (r c).bind fun a => .ok ⟨(a.value, a.literals), [], a.cursor⟩ := rfl

theorem peek_of_endsField {ts : List Token} (h : endsField ts = true) :
    ∃ kind, kind ≠ .operator .dot ∧ kind ≠ .operator .leftBracket ∧
      ∀ last, peek ⟨last, ts⟩ = .ok ⟨some kind, [], ⟨last, ts⟩⟩ := by
  cases ts with
  | nil => cases h
  | cons t ts =>
    obtain ⟨kind, position⟩ := t
    refine ⟨kind, ?_, ?_, fun last => rfl⟩
    · intro hk
      cases hk
      cases h
    · intro hk
      cases hk
      cases h

theorem typeExpr_name {name : String}
    (hname : name ∉ ["struct", "interface", "map", "chan", "func"])
    {fuel room : Nat} (hfuel : 0 < fuel) (hroom : 0 < room) {rest : List Token}
    (hrest : endsField rest = true) (last : Option TokenKind) (p : Position) :
    typeExpr fuel room ⟨last, ⟨.ident name, p⟩ :: rest⟩ =
      .ok ⟨.named none name false, [], ⟨some (.ident name), rest⟩⟩ := by
  obtain ⟨kind, hdot, hbracket, hpeek⟩ := peek_of_endsField hrest
  obtain ⟨fuel, rfl⟩ := Nat.exists_eq_succ_of_ne_zero (Nat.ne_of_gt hfuel)
  obtain ⟨room, rfl⟩ := Nat.exists_eq_succ_of_ne_zero (Nat.ne_of_gt hroom)
  have hread : typeName (groupInside fuel room) ⟨last, ⟨.ident name, p⟩ :: rest⟩ =
      .ok ⟨(name, .named none name false), [], ⟨some (.ident name), rest⟩⟩ := by
    simp [typeName, ident, Except.bind, hpeek, hdot, hbracket]
  simp only [List.mem_cons, List.not_mem_nil, or_false, not_or] at hname
  simp [typeExpr, Except.bind, hname, hread]

end Reader

end Source

open Source

theorem Scalar.text_not_keyword (k : Scalar) :
    k.text ∉ ["struct", "interface", "map", "chan", "func"] := by
  cases k with
  | int w | uint w => cases w <;> decide
  | _ => decide

namespace Shape

def kinds (t : Shape) : List TokenKind := t.pieces.filterMap Piece.token?

def fieldsKinds (fs : List (Field Shape)) : List TokenKind :=
  (fieldsPieces fs).filterMap Piece.token?

def moreKinds (fs : List (Field Shape)) : List TokenKind := (morePieces fs).filterMap Piece.token?

@[simp] theorem kinds_scalar (k : Scalar) : kinds (.scalar k) = [.ident k.text] := by
  simp [kinds, pieces]

@[simp] theorem kinds_string : kinds .string = [.ident "string"] := by simp [kinds, pieces]

@[simp] theorem kinds_array (elem : Shape) (length : Nat) :
    kinds (.array elem length) =
      .operator .leftBracket :: .number length.repr :: .operator .rightBracket :: elem.kinds := by
  simp [kinds, pieces]

@[simp] theorem kinds_slice :
    kinds .slice = [.operator .leftBracket, .operator .rightBracket, .ident "_"] := by
  simp [kinds, pieces]

@[simp] theorem kinds_pointer : kinds .pointer = [.operator .star, .ident "_"] := by
  simp [kinds, pieces]

@[simp] theorem kinds_interface :
    kinds .interface = [.ident "interface", .operator .leftBrace, .operator .rightBrace] := by
  simp [kinds, pieces]

@[simp] theorem kinds_struct (fs : List (Field Shape)) :
    kinds (.struct fs) =
      .ident "struct" :: .operator .leftBrace :: (fieldsKinds fs ++ [.operator .rightBrace]) := by
  simp [kinds, fieldsKinds, pieces]

@[simp] theorem fieldsKinds_nil : fieldsKinds [] = [] := rfl

@[simp] theorem fieldsKinds_cons (name : String) (type : Shape) (i : Nat)
    (fs : List (Field Shape)) :
    fieldsKinds (⟨name, type, i⟩ :: fs) = .ident name :: (type.kinds ++ moreKinds fs) := by
  simp [fieldsKinds, kinds, moreKinds, fieldsPieces, fieldPieces, List.filterMap_cons]

@[simp] theorem moreKinds_nil : moreKinds [] = [] := rfl

@[simp] theorem moreKinds_cons (f : Field Shape) (fs : List (Field Shape)) :
    moreKinds (f :: fs) = .semicolon :: fieldsKinds (f :: fs) := by
  simp [moreKinds, fieldsKinds, morePieces, fieldsPieces, List.filterMap_cons]

mutual

def nesting : Shape → Nat
  | array elem _ => elem.nesting + 1
  | struct fields => fieldsNesting fields + 1
  | _ => 0

def fieldsNesting : List (Field Shape) → Nat
  | [] => 0
  | ⟨_, type, _⟩ :: fs => max type.nesting (fieldsNesting fs)

end

mutual

def structs : Shape → List (List (Field Shape))
  | array elem _ => elem.structs
  | struct fields => fields :: fieldsStructs fields
  | _ => []

def fieldsStructs : List (Field Shape) → List (List (Field Shape))
  | [] => []
  | ⟨_, type, _⟩ :: fs => type.structs ++ fieldsStructs fs

end

mutual

def written : Shape → WrittenType
  | scalar k => .named none k.text false
  | string => .named none "string" false
  | array elem length => .array (.known length) elem.written
  | slice => .slice
  | pointer => .reference
  | interface => .interface
  | struct fields => .struct (writtenFields fields)
  | unresolved name => .named none name false

def writtenFields : List (Field Shape) → List (FieldDecl WrittenType)
  | [] => []
  | ⟨name, type, _⟩ :: fs => ⟨name, type.written⟩ :: writtenFields fs

end

def StartsType (kind : TokenKind) : Prop :=
  (∃ name, kind = .ident name) ∨ kind = .operator .leftBracket ∨ kind = .operator .star

theorem kinds_eq_cons {t : Shape} (h : t.Writable) :
    ∃ kind kinds, t.kinds = kind :: kinds ∧ StartsType kind := by
  cases t with
  | unresolved name => exact h.elim
  | array elem length | slice | pointer => simp [StartsType]
  | _ => simp [StartsType]

theorem endsField_of_startsType {t : Token} (h : StartsType t.kind) (ts : List Token) :
    Reader.endsField (t :: ts) = false := by
  obtain ⟨kind, position⟩ := t
  obtain ⟨name, rfl⟩ | rfl | rfl := h <;> rfl

/-- A field name in front of a type is no embedded type, though both may go on with a bracket. -/
theorem isEmbedded_eq_false {t : Shape} (h : t.Writable) {ts : List Token}
    (hts : ts.map (·.kind) = t.kinds) (name : Token) (rest : List Token) :
    Reader.isEmbedded (name :: (ts ++ rest)) = false := by
  cases t with
  | array elem length =>
    obtain ⟨kind, kinds, hkinds, hstart⟩ := kinds_eq_cons h.1
    simp only [kinds_array, hkinds, List.map_eq_cons_iff] at hts
    obtain ⟨⟨_, p⟩, _, rfl, rfl, ⟨_, q⟩, _, rfl, rfl, ⟨_, r⟩, _, rfl, rfl, t, ts, rfl, rfl, -⟩ :=
      hts
    have hgroup : group? (⟨.operator .leftBracket, p⟩ :: ⟨.number length.repr, q⟩ ::
        ⟨.operator .rightBracket, r⟩ :: t :: (ts ++ rest)) =
        some ([⟨.number length.repr, q⟩], t :: (ts ++ rest)) := by
      simp [group?, Operator.closing?, splitGroup]
    simp [Reader.isEmbedded, hgroup, endsField_of_startsType hstart]
  | slice =>
    simp only [kinds_slice, List.map_eq_cons_iff, List.map_eq_nil_iff] at hts
    obtain ⟨⟨_, p⟩, _, rfl, rfl, ⟨_, q⟩, _, rfl, rfl, ⟨_, r⟩, _, rfl, rfl, rfl⟩ := hts
    have hgroup : group? (⟨.operator .leftBracket, p⟩ :: ⟨.operator .rightBracket, q⟩ ::
        ⟨.ident "_", r⟩ :: rest) = some ([], ⟨.ident "_", r⟩ :: rest) := by
      simp [group?, Operator.closing?, splitGroup]
    simp [Reader.isEmbedded, hgroup, Reader.endsField]
  | unresolved name => exact h.elim
  | scalar _ | string | pointer | interface | struct _ =>
    simp only [kinds_scalar, kinds_string, kinds_pointer, kinds_interface, kinds_struct,
      List.map_eq_cons_iff] at hts
    obtain ⟨⟨_, p⟩, ts, rfl, rfl, -⟩ := hts
    rfl

end Shape

namespace Source.Reader

variable {α : Type}

/-- The reader passes over the tokens `ts` and stops in front of `rest`. What it finds on the way is
given by the names and fields of the literals. -/
def Takes (r : Reader α) (ts rest : List Token) (value : α)
    (found : List (Option String × List (FieldDecl WrittenType))) : Prop :=
  ∀ last, ∃ literals last', r ⟨last, ts ++ rest⟩ = .ok ⟨value, literals, ⟨last', rest⟩⟩ ∧
    literals.map (fun l => (l.name, l.fields)) = found

theorem takes_fieldDecl {t : Shape} (ht : t.Writable) {ts rest : List Token}
    (hts : ts.map (·.kind) = t.kinds) {inside : Nat → Reader Unit} {type : Reader WrittenType}
    {value : WrittenType} {found : List (Option String × List (FieldDecl WrittenType))}
    (h : type.Takes ts rest value found) (name : String) (p : Position) :
    (fieldDecl inside type).Takes (⟨.ident name, p⟩ :: ts) rest [⟨name, value⟩] found := by
  intro last
  obtain ⟨literals, last', hread, hfound⟩ := h (some (.ident name))
  have hemb := Shape.isEmbedded_eq_false ht hts ⟨.ident name, p⟩ rest
  obtain ⟨_, kinds, hkinds, hstart⟩ := Shape.kinds_eq_cons ht
  rw [hkinds, List.map_eq_cons_iff] at hts
  obtain ⟨⟨kind, q⟩, ts, rfl, rfl, -⟩ := hts
  have hcomma : kind ≠ .operator .comma := by
    intro hk
    simp [Shape.StartsType, hk] at hstart
  have hnames : namesAhead (⟨kind, q⟩ :: (ts ++ rest)) = [] := by
    obtain ⟨name, hk⟩ | hk | hk := hstart <;> cases hk <;> rfl
  refine ⟨literals, last', ?_, hfound⟩
  simp only [List.cons_append] at hread hemb ⊢
  simp [fieldDecl, hemb, ident, moreNames, hnames, hcomma, hread, Except.bind]

section Types

variable {fuel room : Nat} {ts rest : List Token} {value : WrittenType}
  {found : List (Option String × List (FieldDecl WrittenType))}

theorem takes_name {name : String} (hname : name ∉ ["struct", "interface", "map", "chan", "func"])
    (hfuel : 0 < fuel) (hroom : 0 < room) (hrest : endsField rest = true) (p : Position) :
    (typeExpr fuel room).Takes [⟨.ident name, p⟩] rest (.named none name false) [] :=
  fun last => ⟨[], _, typeExpr_name hname hfuel hroom hrest last p, rfl⟩

theorem takes_array {text : String} {n : Nat} (hn : integer? text = some n)
    (h : (typeExpr fuel room).Takes ts rest value found) (p q r : Position) :
    (typeExpr (fuel + 1) (room + 1)).Takes (⟨.operator .leftBracket, p⟩ :: ⟨.number text, q⟩ ::
      ⟨.operator .rightBracket, r⟩ :: ts) rest (.array (.known n) value) found := by
  intro last
  obtain ⟨literals, last', hread, hfound⟩ := h (some (.operator .rightBracket))
  refine ⟨literals, last', ?_, hfound⟩
  simp [typeExpr, arrayLength, advance, Cursor.advance, Cursor.skip, hn, hread,
    Except.bind]

theorem takes_slice (h : (typeExpr fuel room).Takes ts rest value found) (p q : Position) :
    (typeExpr (fuel + 1) (room + 1)).Takes (⟨.operator .leftBracket, p⟩ ::
      ⟨.operator .rightBracket, q⟩ :: ts) rest .slice found := by
  intro last
  obtain ⟨literals, last', hread, hfound⟩ := h (some (.operator .rightBracket))
  refine ⟨literals, last', ?_, hfound⟩
  simp [typeExpr, hread, Except.bind]

theorem takes_pointer (h : (typeExpr fuel room).Takes ts rest value found) (p : Position) :
    (typeExpr (fuel + 1) (room + 1)).Takes (⟨.operator .star, p⟩ :: ts) rest .reference found := by
  intro last
  obtain ⟨literals, last', hread, hfound⟩ := h (some (.operator .star))
  refine ⟨literals, last', ?_, hfound⟩
  simp [typeExpr, hread, Except.bind]

theorem takes_interface (hfuel : 0 < fuel) (p q r : Position) :
    (typeExpr (fuel + 1) (room + 1)).Takes [⟨.ident "interface", p⟩, ⟨.operator .leftBrace, q⟩,
      ⟨.operator .rightBrace, r⟩] rest .interface [] := by
  intro last
  obtain ⟨fuel, rfl⟩ := Nat.exists_eq_succ_of_ne_zero (Nat.ne_of_gt hfuel)
  refine ⟨[], some (.operator .rightBrace), ?_, rfl⟩
  simp [typeExpr, bracketGroup, group?, Operator.closing?, splitGroup, groupInside, Except.bind]

theorem structType_eq_ok {fields : Reader (List (FieldDecl WrittenType))}
    {decls : List (FieldDecl WrittenType)} {literals : List StructLiteral} {c : Cursor}
    (h : fields ⟨some (.operator .leftBrace), ts⟩ = .ok ⟨decls, literals, c⟩) (name : Option String)
    (last : Option TokenKind) (p q : Position) :
    structType name fields ⟨last, ⟨.ident "struct", p⟩ :: ⟨.operator .leftBrace, q⟩ :: ts⟩ =
      .ok ⟨.struct decls, ⟨p, name, decls⟩ :: literals, c⟩ := by
  simp [structType, expect, h, Except.bind]

theorem takes_struct {decls : List (FieldDecl WrittenType)}
    (h : (fieldList fuel room).Takes ts rest decls found) (p q : Position) :
    (typeExpr (fuel + 1) (room + 1)).Takes (⟨.ident "struct", p⟩ :: ⟨.operator .leftBrace, q⟩ :: ts)
      rest (.struct decls) ((none, decls) :: found) := by
  intro last
  obtain ⟨literals, last', hread, hfound⟩ := h (some (.operator .leftBrace))
  refine ⟨⟨p, none, decls⟩ :: literals, last', ?_, by simp [hfound]⟩
  simp [typeExpr, structType_eq_ok hread, Except.bind]

end Types

theorem takes_fieldEnd_semicolon (p : Position) (rest : List Token) :
    fieldEnd.Takes [⟨.semicolon, p⟩] rest () [] := by
  intro last
  exact ⟨[], some .semicolon, by simp [fieldEnd, skipIf, Except.bind], rfl⟩

theorem takes_fieldEnd_rightBrace (p : Position) (rest : List Token) :
    fieldEnd.Takes [] (⟨.operator .rightBrace, p⟩ :: rest) () [] := by
  intro last
  exact ⟨[], last, by simp [fieldEnd, skipIf, Except.bind], rfl⟩

theorem takes_fieldList_nil {fuel : Nat} (hfuel : 0 < fuel) (room : Nat) (p : Position)
    (rest : List Token) :
    (fieldList fuel room).Takes [⟨.operator .rightBrace, p⟩] rest [] [] := by
  intro last
  obtain ⟨fuel, rfl⟩ := Nat.exists_eq_succ_of_ne_zero (Nat.ne_of_gt hfuel)
  exact ⟨[], some (.operator .rightBrace), by simp [fieldList, Except.bind], rfl⟩

theorem takes_fieldList_cons {fuel room : Nat} {t : Token} {ts sep us rest : List Token}
    {decls decls' : List (FieldDecl WrittenType)}
    {found more : List (Option String × List (FieldDecl WrittenType))}
    (ht : (∃ name, t.kind = .ident name) ∨ t.kind = .operator .star)
    (hdecl : (fieldDecl (groupInside fuel room) (typeExpr fuel room)).Takes (t :: ts)
      (sep ++ (us ++ rest)) decls found)
    (hend : fieldEnd.Takes sep (us ++ rest) () [])
    (hmore : (fieldList fuel room).Takes us rest decls' more) :
    (fieldList (fuel + 1) room).Takes (t :: (ts ++ (sep ++ us))) rest (decls ++ decls')
      (found ++ more) := by
  intro last
  obtain ⟨literals, last₁, hread, hfound⟩ := hdecl last
  obtain ⟨none, last₂, hsep, hnone⟩ := hend last₁
  obtain ⟨others, last₃, hrest, hothers⟩ := hmore last₂
  simp only [List.map_eq_nil_iff] at hnone
  refine ⟨literals ++ others, last₃, ?_, by simp [hfound, hothers]⟩
  simp only [List.cons_append, List.append_assoc] at hread ⊢
  obtain ⟨name, ht⟩ | ht := ht
  · simp [fieldList, ht, hread, hsep, hrest, hnone, Except.bind]
  · simp [fieldList, ht, hread, hsep, hrest, hnone, Except.bind]

def unnamed (structs : List (List (Field Shape))) :
    List (Option String × List (FieldDecl WrittenType)) :=
  structs.map fun fields => (none, Shape.writtenFields fields)

mutual

theorem takes_typeExpr (t : Shape) (h : t.Writable) {fuel room : Nat} {ts rest : List Token}
    (hts : ts.map (·.kind) = t.kinds) (hfuel : ts.length ≤ fuel) (hroom : t.nesting + 2 ≤ room)
    (hrest : endsField rest = true) :
    (typeExpr fuel room).Takes ts rest t.written (unnamed t.structs) := by
  have hlength : 0 < ts.length := by
    obtain ⟨kind, kinds, hkinds, -⟩ := Shape.kinds_eq_cons h
    rw [hkinds, List.map_eq_cons_iff] at hts
    obtain ⟨_, _, rfl, -⟩ := hts
    exact Nat.zero_lt_succ _
  obtain ⟨fuel, rfl⟩ : ∃ n, fuel = n + 1 := ⟨fuel - 1, by omega⟩
  obtain ⟨room, rfl⟩ : ∃ n, room = n + 1 := ⟨room - 1, by omega⟩
  cases t with
  | scalar k =>
    simp only [Shape.kinds_scalar, List.map_eq_cons_iff, List.map_eq_nil_iff] at hts
    obtain ⟨⟨_, p⟩, _, rfl, rfl, rfl⟩ := hts
    exact takes_name k.text_not_keyword (by omega) (by omega) hrest p
  | string =>
    simp only [Shape.kinds_string, List.map_eq_cons_iff, List.map_eq_nil_iff] at hts
    obtain ⟨⟨_, p⟩, _, rfl, rfl, rfl⟩ := hts
    exact takes_name (by decide) (by omega) (by omega) hrest p
  | array elem length =>
    simp only [Shape.kinds_array, List.map_eq_cons_iff] at hts
    obtain ⟨⟨_, p⟩, _, rfl, rfl, ⟨_, q⟩, _, rfl, rfl, ⟨_, r⟩, ts, rfl, rfl, hts⟩ := hts
    simp only [List.length_cons, Shape.nesting] at hfuel hroom
    exact takes_array (integer?_repr h.2)
      (takes_typeExpr elem h.1 hts (by omega) (by omega) hrest) p q r
  | slice =>
    -- The name in place of its element is a type inside it, which takes the second level of
    -- nesting.
    simp only [Shape.kinds_slice, List.map_eq_cons_iff, List.map_eq_nil_iff] at hts
    obtain ⟨⟨_, p⟩, _, rfl, rfl, ⟨_, q⟩, _, rfl, rfl, ⟨_, r⟩, _, rfl, rfl, rfl⟩ := hts
    simp only [List.length_cons] at hfuel
    exact takes_slice (takes_name (by decide) (by omega) (by omega) hrest r) p q
  | pointer =>
    simp only [Shape.kinds_pointer, List.map_eq_cons_iff, List.map_eq_nil_iff] at hts
    obtain ⟨⟨_, p⟩, _, rfl, rfl, ⟨_, q⟩, _, rfl, rfl, rfl⟩ := hts
    simp only [List.length_cons] at hfuel
    exact takes_pointer (takes_name (by decide) (by omega) (by omega) hrest q) p
  | interface =>
    simp only [Shape.kinds_interface, List.map_eq_cons_iff, List.map_eq_nil_iff] at hts
    obtain ⟨⟨_, p⟩, _, rfl, rfl, ⟨_, q⟩, _, rfl, rfl, ⟨_, r⟩, _, rfl, rfl, rfl⟩ := hts
    simp only [List.length_cons] at hfuel
    exact takes_interface (by omega) p q r
  | struct fields =>
    simp only [Shape.kinds_struct, List.map_eq_cons_iff] at hts
    obtain ⟨⟨_, p⟩, _, rfl, rfl, ⟨_, q⟩, ts, rfl, rfl, hts⟩ := hts
    simp only [List.length_cons, Shape.nesting] at hfuel hroom
    exact takes_struct (takes_fieldList fields h rest hts (by omega) (by omega)) p q
  | unresolved name => exact h.elim

theorem takes_fieldList {i : Nat} (fs : List (Field Shape)) (h : Shape.FieldsWritable i fs)
    {fuel room : Nat} {ts : List Token} (rest : List Token)
    (hts : ts.map (·.kind) = Shape.fieldsKinds fs ++ [.operator .rightBrace])
    (hfuel : ts.length ≤ fuel) (hroom : Shape.fieldsNesting fs + 2 ≤ room) :
    (fieldList fuel room).Takes ts rest (Shape.writtenFields fs)
    (unnamed (Shape.fieldsStructs fs)) := by
  match fs with
  | [] =>
    simp only [Shape.fieldsKinds_nil, List.nil_append, List.map_eq_cons_iff, List.map_eq_nil_iff]
      at hts
    obtain ⟨⟨_, p⟩, _, rfl, rfl, rfl⟩ := hts
    exact takes_fieldList_nil hfuel room p rest
  | ⟨name, type, index⟩ :: fs =>
    rw [Shape.fieldsKinds_cons, List.cons_append, List.append_assoc, List.map_eq_cons_iff] at hts
    obtain ⟨⟨_, p⟩, _, rfl, rfl, hts⟩ := hts
    obtain ⟨ts, us, rfl, hts, hus⟩ := List.map_eq_append_iff.mp hts
    simp only [List.length_cons, List.length_append, Shape.fieldsNesting] at hfuel hroom
    obtain ⟨fuel, rfl⟩ : ∃ n, fuel = n + 1 := ⟨fuel - 1, by omega⟩
    have hdecl (rest : List Token) (hrest : endsField rest = true) :
        (fieldDecl (groupInside fuel room) (typeExpr fuel room)).Takes (⟨.ident name, p⟩ :: ts) rest
          [⟨name, type.written⟩] (unnamed type.structs) :=
      takes_fieldDecl h.1.2.1 hts (takes_typeExpr type h.1.2.1 hts (by omega) (by omega) hrest) name
        p
    rw [Shape.writtenFields, Shape.fieldsStructs, unnamed, List.map_append]
    cases fs with
    | nil =>
      simp only [Shape.moreKinds_nil, List.nil_append, List.map_eq_cons_iff, List.map_eq_nil_iff]
        at hus
      obtain ⟨⟨_, q⟩, _, rfl, rfl, rfl⟩ := hus
      simp only [List.length_cons] at hfuel
      exact takes_fieldList_cons (.inl ⟨name, rfl⟩) (hdecl _ rfl) (takes_fieldEnd_rightBrace q rest)
        (takes_fieldList_nil (by omega) room q rest)
    | cons g gs =>
      simp only [Shape.moreKinds_cons, List.cons_append, List.map_eq_cons_iff] at hus
      obtain ⟨⟨_, q⟩, us, rfl, rfl, hus⟩ := hus
      simp only [List.length_cons] at hfuel
      exact takes_fieldList_cons (.inl ⟨name, rfl⟩) (hdecl _ rfl)
        (takes_fieldEnd_semicolon q (us ++ rest))
          (takes_fieldList (g :: gs) h.2 rest hus (by omega) (by omega))

end

end Source.Reader

end FieldOrder
