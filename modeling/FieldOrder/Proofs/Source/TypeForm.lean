import FieldOrder.Proofs.Source.LongestMatch
import FieldOrder.Proofs.Source.Nesting

/-! Types as they are spelled: their tokens, and what is read from them in front of anything that
can follow a field. -/
namespace FieldOrder.Source

def keywords : List String :=
  ["break", "case", "chan", "const", "continue", "default", "defer", "else", "fallthrough", "for",
    "func", "go", "goto", "if", "import", "interface", "map", "package", "range", "return",
      "select",
    "struct", "switch", "type", "var"]

def IsName (name : String) : Prop := Rule.identifier.Matches name.toList ∧ name ∉ keywords

instance : DecidablePred IsName := fun name =>
  inferInstanceAs (Decidable (Rule.identifier.Matches name.toList ∧ name ∉ keywords))

mutual

/-- A type. The length of an array is given as it is written and by its value. A struct is closed if
a semicolon stands behind its last field. -/
inductive TypeForm where
  | named (name : String)
  | pointer (target : TypeForm)
  | slice (elem : TypeForm)
  | interface
  | array (text : String) (length : Nat) (elem : TypeForm)
  | struct (fields : List FieldForm) (closed : Bool)

inductive FieldForm where
  | named (name : String) (more : List String) (type : TypeForm)
  | embedded (pointer : Bool) (name : String)

end

def separator {α : Type} (closed : Bool) (after : List α) : List TokenKind :=
  if after.isEmpty && !closed then [] else [.semicolon]

namespace TypeForm

mutual

def Writable : TypeForm → Prop
  | .named name => IsName name
  | .pointer target => target.Writable
  | .slice elem => elem.Writable
  | .interface => True
  | .array text length elem => IsNumber text ∧ integer? text = some length ∧ elem.Writable
  | .struct fields _ => FieldsWritable fields

def FieldsWritable : List FieldForm → Prop
  | [] => True
  | f :: fs => FieldWritable f ∧ FieldsWritable fs

def FieldWritable : FieldForm → Prop
  | .named name more type => IsName name ∧ (∀ other ∈ more, IsName other) ∧ type.Writable
  | .embedded _ name => IsName name

end

mutual

def kinds : TypeForm → List TokenKind
  | .named name => [.ident name]
  | .pointer target => .operator .star :: target.kinds
  | .slice elem => .operator .leftBracket :: .operator .rightBracket :: elem.kinds
  | .interface => [.ident "interface", .operator .leftBrace, .operator .rightBrace]
  | .array text _ elem =>
    .operator .leftBracket :: .number text :: .operator .rightBracket :: elem.kinds
  | .struct fields closed =>
    .ident "struct" :: .operator .leftBrace ::
      (fieldsKinds closed fields ++ [.operator .rightBrace])

def fieldsKinds (closed : Bool) : List FieldForm → List TokenKind
  | [] => []
  | f :: fs => fieldKinds f ++ (separator closed fs ++ fieldsKinds closed fs)

def fieldKinds : FieldForm → List TokenKind
  | .named name more type =>
    .ident name :: (more.flatMap (fun other => [.operator .comma, .ident other]) ++ type.kinds)
  | .embedded true name => [.operator .star, .ident name]
  | .embedded false name => [.ident name]

end

mutual

def written : TypeForm → WrittenType
  | .named name => .named none name false
  | .pointer _ => .reference
  | .slice _ => .slice
  | .interface => .interface
  | .array _ length elem => .array (.known length) elem.written
  | .struct fields _ => .struct (fieldsWritten fields)

def fieldsWritten : List FieldForm → List (FieldDecl WrittenType)
  | [] => []
  | f :: fs => fieldWritten f ++ fieldsWritten fs

def fieldWritten : FieldForm → List (FieldDecl WrittenType)
  | .named name more type => (name :: more).map (⟨·, type.written⟩)
  | .embedded true name => [⟨name, .reference⟩]
  | .embedded false name => [⟨name, .named none name false⟩]

end

mutual

def structs : TypeForm → List (List (FieldDecl WrittenType))
  | .named _ => []
  | .pointer target => target.structs
  | .slice elem => elem.structs
  | .interface => []
  | .array _ _ elem => elem.structs
  | .struct fields _ => fieldsWritten fields :: fieldsStructs fields

def fieldsStructs : List FieldForm → List (List (FieldDecl WrittenType))
  | [] => []
  | f :: fs => fieldStructs f ++ fieldsStructs fs

def fieldStructs : FieldForm → List (List (FieldDecl WrittenType))
  | .named _ _ type => type.structs
  | .embedded _ _ => []

end

mutual

def depth : TypeForm → Nat
  | .named _ => 1
  | .pointer target => target.depth + 1
  | .slice elem => elem.depth + 1
  | .interface => 1
  | .array _ _ elem => elem.depth + 1
  | .struct fields _ => fieldsDepth fields + 1

def fieldsDepth : List FieldForm → Nat
  | [] => 0
  | f :: fs => max (fieldDepth f) (fieldsDepth fs)

def fieldDepth : FieldForm → Nat
  | .named _ _ type => type.depth
  | .embedded _ _ => 0

end

theorem kinds_eq_cons (t : TypeForm) :
    ∃ kind kinds, t.kinds = kind :: kinds ∧ Shape.StartsType kind := by
  cases t <;> simp [kinds, Shape.StartsType]

theorem fieldKinds_eq_cons (f : FieldForm) : ∃ kind kinds, fieldKinds f = kind :: kinds ∧
    ((∃ name, kind = .ident name) ∨ kind = .operator .star) := by
  obtain ⟨name, more, type⟩ | ⟨_ | _, name⟩ := f <;> simp [fieldKinds]

theorem isEmbedded_eq_false (t : TypeForm) {ts : List Token} (hts : ts.map (·.kind) = t.kinds)
    (name : Token) (rest : List Token) : Reader.isEmbedded (name :: (ts ++ rest)) = false := by
  -- Behind the brackets of a slice or an array stands a type.
  have hgroup {p q : Position} {inside us : List Token} {elem : TypeForm}
    (hinside : Balanced inside)
      (hus : us.map (·.kind) = elem.kinds) :
        Reader.isEmbedded (name :: ⟨.operator .leftBracket, p⟩ ::
        (inside ++ ⟨.operator .rightBracket, q⟩ :: (us ++ rest))) = false := by
    have hop : Operator.closing? .leftBracket = some .rightBracket := rfl
    obtain ⟨kind, kinds, hkinds, hstart⟩ := kinds_eq_cons elem
    rw [hkinds, List.map_eq_cons_iff] at hus
    obtain ⟨t, us, rfl, rfl, -⟩ := hus
    simp only [Reader.isEmbedded, group?_balanced hop hinside]
    exact Shape.endsField_of_startsType hstart _
  cases t with
  | slice elem =>
    simp only [kinds, List.map_eq_cons_iff] at hts
    obtain ⟨⟨_, p⟩, _, rfl, rfl, ⟨_, q⟩, us, rfl, rfl, hus⟩ := hts
    exact hgroup .nil hus
  | array text length elem =>
    simp only [kinds, List.map_eq_cons_iff] at hts
    obtain ⟨⟨_, p⟩, _, rfl, rfl, ⟨_, r⟩, _, rfl, rfl, ⟨_, q⟩, us, rfl, rfl, hus⟩ := hts
    exact hgroup (.plain (t := ⟨.number text, r⟩) rfl .nil) hus
  | named _ | pointer _ | interface | struct _ _ =>
    simp only [kinds, List.map_eq_cons_iff] at hts
    obtain ⟨⟨_, p⟩, ts, rfl, rfl, -⟩ := hts
    rfl

end TypeForm

namespace Reader

theorem moreNames_eq_ok {more : List String} {ms rest : List Token}
    (hms : ms.map (·.kind) = more.flatMap fun other => [.operator .comma, .ident other])
    (hrest : rest.head?.map (·.kind) ≠ some (.operator .comma)) (last : Option TokenKind) :
    ∃ last', moreNames ⟨last, ms ++ rest⟩ = .ok ⟨more, [], ⟨last', rest⟩⟩ := by
  have hnames : namesAhead (ms ++ rest) = more ∧
      ∃ last', Cursor.advance (2 * more.length) ⟨last, ms ++ rest⟩ = ⟨last', rest⟩ := by
    induction more generalizing ms last with
    | nil =>
      simp only [List.flatMap_nil, List.map_eq_nil_iff] at hms
      subst hms
      refine ⟨?_, last, rfl⟩
      unfold namesAhead
      split
      · rename_i heq
        rw [List.nil_append] at heq
        exact absurd (by rw [heq]; rfl) hrest
      · rfl
    | cons other more ih =>
      simp only [List.flatMap_cons, List.cons_append, List.nil_append, List.map_eq_cons_iff] at hms
      obtain ⟨⟨_, p⟩, _, rfl, rfl, ⟨_, q⟩, ms, rfl, rfl, hms⟩ := hms
      obtain ⟨hnames, last', hadvance⟩ := ih hms (some (.ident other))
      exact ⟨congrArg (other :: ·) hnames, last', hadvance⟩
  obtain ⟨hnames, last', hadvance⟩ := hnames
  refine ⟨last', ?_⟩
  simp [moreNames, hnames, advance, hadvance, peek, hrest, Except.bind]

theorem takes_fieldDecl_named (t : TypeForm) {more : List String} {ms ts rest : List Token}
    (hms : ms.map (·.kind) = more.flatMap fun other => [.operator .comma, .ident other])
    (hts : ts.map (·.kind) = t.kinds) {inside : Nat → Reader Unit} {type : Reader WrittenType}
    {value : WrittenType} {found : List (Option String × List (FieldDecl WrittenType))}
    (h : type.Takes ts rest value found) (name : String) (p : Position) :
    (fieldDecl inside type).Takes (⟨.ident name, p⟩ :: (ms ++ ts)) rest
      ((name :: more).map (⟨·, value⟩)) found := by
  intro last
  obtain ⟨kind, kinds, hkinds, hstart⟩ := t.kinds_eq_cons
  have hcomma : (ts ++ rest).head?.map (·.kind) ≠ some (.operator .comma) := by
    rw [hkinds, List.map_eq_cons_iff] at hts
    obtain ⟨t, ts, rfl, rfl, -⟩ := hts
    intro heq
    simp only [List.cons_append, List.head?_cons, Option.map_some, Option.some.injEq] at heq
    simp [heq, Shape.StartsType] at hstart
  have hemb : isEmbedded (⟨.ident name, p⟩ :: (ms ++ (ts ++ rest))) = false := by
    cases more with
    | nil =>
      simp only [List.flatMap_nil, List.map_eq_nil_iff] at hms
      subst hms
      exact t.isEmbedded_eq_false hts _ rest
    | cons other more =>
      simp only [List.flatMap_cons, List.cons_append, List.map_eq_cons_iff] at hms
      obtain ⟨⟨_, q⟩, ms, rfl, rfl, -⟩ := hms
      rfl
  obtain ⟨last₁, hmore⟩ := moreNames_eq_ok hms hcomma (some (.ident name))
  obtain ⟨literals, last', hread, hfound⟩ := h last₁
  refine ⟨literals, last', ?_, hfound⟩
  simp [fieldDecl, hemb, ident, hmore, hread, Except.bind]

theorem takes_fieldDecl_embedded {rest : List Token} (hrest : endsField rest = true)
    {inside : Nat → Reader Unit} {type : Reader WrittenType} (pointer : Bool) {name : String}
    {ts : List Token} (hts : ts.map (·.kind) = TypeForm.fieldKinds (.embedded pointer name)) :
    (fieldDecl inside type).Takes ts rest (TypeForm.fieldWritten (.embedded pointer name)) [] := by
  intro last
  obtain ⟨kind, hdot, hbracket, hpeek⟩ := peek_of_endsField hrest
  cases pointer with
  | true =>
    simp only [TypeForm.fieldKinds, List.map_eq_cons_iff, List.map_eq_nil_iff] at hts
    obtain ⟨⟨_, p⟩, _, rfl, rfl, ⟨_, q⟩, _, rfl, rfl, rfl⟩ := hts
    refine ⟨[], some (.ident name), ?_, rfl⟩
    simp [fieldDecl, typeName, ident, hpeek, hdot, hbracket, TypeForm.fieldWritten, Except.bind]
  | false =>
    simp only [TypeForm.fieldKinds, List.map_eq_cons_iff, List.map_eq_nil_iff] at hts
    obtain ⟨⟨_, p⟩, _, rfl, rfl, rfl⟩ := hts
    have hemb : isEmbedded (⟨.ident name, p⟩ :: rest) = true := by
      unfold endsField at hrest
      split at hrest
      · rfl
      · rfl
      · rfl
      · cases hrest
    refine ⟨[], some (.ident name), ?_, rfl⟩
    simp [fieldDecl, hemb, typeName, ident, hpeek, hdot, hbracket, TypeForm.fieldWritten,
      Except.bind]

/-- The tokens behind an item of a list: a semicolon, or nothing in front of a brace. -/
def Separates (sep rest : List Token) : Prop :=
  (∃ q, sep = [⟨.semicolon, q⟩]) ∨
    (sep = [] ∧ ∃ q after, rest = ⟨.operator .rightBrace, q⟩ :: after)

theorem separates {α : Type} {closed : Bool} {after : List α} {sep rest : List Token}
    (hsep : sep.map (·.kind) = separator closed after)
    (hrest : after = [] → rest.head?.map (·.kind) = some (.operator .rightBrace)) :
    Separates sep rest := by
  unfold separator at hsep
  split at hsep
  · rename_i hlast
    simp only [Bool.and_eq_true, List.isEmpty_iff] at hlast
    exact .inr ⟨List.map_eq_nil_iff.mp hsep, head_eq_some (hrest hlast.1)⟩
  · simp only [List.map_eq_cons_iff, List.map_eq_nil_iff] at hsep
    obtain ⟨⟨_, q⟩, _, rfl, rfl, rfl⟩ := hsep
    exact .inl ⟨q, rfl⟩

theorem Separates.endsField {sep rest : List Token} (h : Separates sep rest) :
    endsField (sep ++ rest) = true := by
  obtain ⟨q, rfl⟩ | ⟨rfl, q, after, rfl⟩ := h <;> rfl

theorem Separates.fieldEnd {sep rest : List Token} (h : Separates sep rest) :
    fieldEnd.Takes sep rest () [] := by
  obtain ⟨q, rfl⟩ | ⟨rfl, q, after, rfl⟩ := h
  · exact takes_fieldEnd_semicolon q rest
  · exact takes_fieldEnd_rightBrace q after

def foundInside (structs : List (List (FieldDecl WrittenType))) :
    List (Option String × List (FieldDecl WrittenType)) :=
  structs.map (none, ·)

mutual

theorem takes_form (t : TypeForm) (h : t.Writable) {fuel room : Nat} {ts rest : List Token}
    (hts : ts.map (·.kind) = t.kinds) (hfuel : ts.length ≤ fuel) (hroom : t.depth ≤ room)
    (hrest : endsField rest = true) :
    (typeExpr fuel room).Takes ts rest t.written (foundInside t.structs) := by
  have hlength : 0 < ts.length := by
    obtain ⟨kind, kinds, hkinds, -⟩ := t.kinds_eq_cons
    rw [hkinds, List.map_eq_cons_iff] at hts
    obtain ⟨_, _, rfl, -⟩ := hts
    exact Nat.zero_lt_succ _
  have hdepth : 0 < t.depth := by
    cases t <;> simp [TypeForm.depth]
  obtain ⟨fuel, rfl⟩ : ∃ n, fuel = n + 1 := ⟨fuel - 1, by omega⟩
  obtain ⟨room, rfl⟩ : ∃ n, room = n + 1 := ⟨room - 1, by omega⟩
  cases t with
  | named name =>
    simp only [TypeForm.kinds, List.map_eq_cons_iff, List.map_eq_nil_iff] at hts
    obtain ⟨⟨_, p⟩, _, rfl, rfl, rfl⟩ := hts
    have hwords : ∀ word ∈ ["struct", "interface", "map", "chan", "func"], word ∈ keywords := by
      decide
    exact takes_name (fun hmem => h.2 (hwords name hmem)) (by omega) (by omega) hrest p
  | pointer target =>
    simp only [TypeForm.kinds, List.map_eq_cons_iff] at hts
    obtain ⟨⟨_, p⟩, ts, rfl, rfl, hts⟩ := hts
    simp only [List.length_cons, TypeForm.depth] at hfuel hroom
    exact takes_pointer (takes_form target h hts (by omega) (by omega) hrest) p
  | slice elem =>
    simp only [TypeForm.kinds, List.map_eq_cons_iff] at hts
    obtain ⟨⟨_, p⟩, _, rfl, rfl, ⟨_, q⟩, ts, rfl, rfl, hts⟩ := hts
    simp only [List.length_cons, TypeForm.depth] at hfuel hroom
    exact takes_slice (takes_form elem h hts (by omega) (by omega) hrest) p q
  | interface =>
    simp only [TypeForm.kinds, List.map_eq_cons_iff, List.map_eq_nil_iff] at hts
    obtain ⟨⟨_, p⟩, _, rfl, rfl, ⟨_, q⟩, _, rfl, rfl, ⟨_, r⟩, _, rfl, rfl, rfl⟩ := hts
    simp only [List.length_cons] at hfuel
    exact takes_interface (by omega) p q r
  | array text length elem =>
    simp only [TypeForm.kinds, List.map_eq_cons_iff] at hts
    obtain ⟨⟨_, p⟩, _, rfl, rfl, ⟨_, q⟩, _, rfl, rfl, ⟨_, r⟩, ts, rfl, rfl, hts⟩ := hts
    simp only [List.length_cons, TypeForm.depth] at hfuel hroom
    exact takes_array h.2.1 (takes_form elem h.2.2 hts (by omega) (by omega) hrest) p q r
  | struct fields closed =>
    simp only [TypeForm.kinds, List.map_eq_cons_iff] at hts
    obtain ⟨⟨_, p⟩, _, rfl, rfl, ⟨_, q⟩, ts, rfl, rfl, hts⟩ := hts
    simp only [List.length_cons, TypeForm.depth] at hfuel hroom
    exact takes_struct (takes_formFields fields h rest hts (by omega) (by omega)) p q

theorem takes_formFields (fs : List FieldForm) (h : TypeForm.FieldsWritable fs) {closed : Bool}
    {fuel room : Nat} {ts : List Token} (rest : List Token)
    (hts : ts.map (·.kind) = TypeForm.fieldsKinds closed fs ++ [.operator .rightBrace])
    (hfuel : ts.length ≤ fuel) (hroom : TypeForm.fieldsDepth fs ≤ room) :
    (fieldList fuel room).Takes ts rest (TypeForm.fieldsWritten fs)
      (foundInside (TypeForm.fieldsStructs fs)) := by
  match fs with
  | [] =>
    simp only [TypeForm.fieldsKinds, List.nil_append, List.map_eq_cons_iff, List.map_eq_nil_iff]
      at hts
    obtain ⟨⟨_, p⟩, _, rfl, rfl, rfl⟩ := hts
    exact takes_fieldList_nil hfuel room p rest
  | f :: fs =>
    rw [TypeForm.fieldsKinds, List.append_assoc, List.append_assoc] at hts
    obtain ⟨ts, vs, rfl, hfield, hvs⟩ := List.map_eq_append_iff.mp hts
    obtain ⟨sep, us, rfl, hsep, hus⟩ := List.map_eq_append_iff.mp hvs
    have hbrace : fs = [] → (us ++ rest).head?.map (·.kind) = some (.operator .rightBrace) := by
      rintro rfl
      simp only [TypeForm.fieldsKinds, List.nil_append, List.map_eq_cons_iff] at hus
      obtain ⟨t, us, rfl, ht, -⟩ := hus
      simp [ht]
    have hends := separates hsep hbrace
    obtain ⟨_, kinds, hkinds, hstart⟩ := TypeForm.fieldKinds_eq_cons f
    obtain ⟨t, ts, rfl, rfl, -⟩ := List.map_eq_cons_iff.mp (hfield.trans hkinds)
    simp only [List.length_append, List.length_cons, TypeForm.fieldsDepth] at hfuel hroom
    obtain ⟨fuel, rfl⟩ : ∃ n, fuel = n + 1 := ⟨fuel - 1, by omega⟩
    rw [TypeForm.fieldsWritten, TypeForm.fieldsStructs, foundInside, List.map_append]
    exact takes_fieldList_cons hstart
      (takes_formField f h.1 hfield (by rw [List.length_cons]; omega) (by omega) hends.endsField)
        hends.fieldEnd
      (takes_formFields fs h.2 rest hus (by omega) (by omega))

theorem takes_formField (f : FieldForm) (h : TypeForm.FieldWritable f) {fuel room : Nat}
    {ts rest : List Token} (hts : ts.map (·.kind) = TypeForm.fieldKinds f)
    (hfuel : ts.length ≤ fuel + 1)
    (hroom : TypeForm.fieldDepth f ≤ room) (hrest : endsField rest = true) :
    (fieldDecl (groupInside fuel room) (typeExpr fuel room)).Takes ts rest (TypeForm.fieldWritten f)
      (foundInside (TypeForm.fieldStructs f)) := by
  match f with
  | .named name more type =>
    simp only [TypeForm.fieldKinds, List.map_eq_cons_iff] at hts
    obtain ⟨⟨_, p⟩, us, rfl, rfl, hus⟩ := hts
    obtain ⟨ms, ts, rfl, hms, hts⟩ := List.map_eq_append_iff.mp hus
    simp only [List.length_cons, List.length_append] at hfuel
    exact takes_fieldDecl_named type hms hts
      (takes_form type h.2.2 hts (by omega) hroom hrest) name p
  | .embedded pointer name => exact takes_fieldDecl_embedded hrest pointer hts

end

end Reader

end FieldOrder.Source
