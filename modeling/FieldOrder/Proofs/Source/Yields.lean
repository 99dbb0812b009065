import FieldOrder.Proofs.Source.Reading
import FieldOrder.Source.Outline
import Mathlib.Data.List.Infix

/-! What a reader yields, stated by what must hold of every result. The lemmas compute this
condition for the primitive readers and for their composition; the brackets that readers look for
are described beside them. -/
namespace FieldOrder.Source

theorem splitGroup_eq_some {opening closing : Operator} {level : Nat} {ts inside after : List Token}
    (h : splitGroup opening closing level ts = some (inside, after)) :
    ∃ p, ts = inside ++ ⟨.operator closing, p⟩ :: after := by
  induction ts generalizing level inside with
  | nil => cases h
  | cons t ts ih =>
    unfold splitGroup at h
    split at h
    · rename_i hclose
      cases level with
      | zero =>
        cases h
        exact ⟨t.position, by rw [← hclose]; rfl⟩
      | succ n =>
        obtain ⟨⟨inside', after'⟩, hsplit, heq⟩ := Option.map_eq_some_iff.mp h
        cases heq
        obtain ⟨p, rfl⟩ := ih hsplit
        exact ⟨p, rfl⟩
    · obtain ⟨⟨inside', after'⟩, hsplit, heq⟩ := Option.map_eq_some_iff.mp h
      cases heq
      obtain ⟨p, rfl⟩ := ih hsplit
      exact ⟨p, rfl⟩

theorem lengthTokens?_eq_some {level : Int} {ts length : List Token}
    (h : lengthTokens? level ts = some length) :
    ∃ p rest, ts = length ++ ⟨.operator .rightBracket, p⟩ :: rest := by
  induction ts generalizing level length with
  | nil => cases h
  | cons t ts ih =>
    rw [lengthTokens?] at h
    split at h
    · rename_i hclose
      cases h
      exact ⟨t.position, ts, by rw [← hclose.1]; rfl⟩
    · obtain ⟨length', hlength, rfl⟩ := Option.map_eq_some_iff.mp h
      obtain ⟨p, rest, rfl⟩ := ih hlength
      exact ⟨p, rest, rfl⟩

@[simp] theorem Cursor.skip_mk_cons (last : Option TokenKind) (t : Token) (ts : List Token) :
    Cursor.skip ⟨last, t :: ts⟩ = ⟨some t.kind, ts⟩ := rfl

theorem Cursor.skip_of_rest {c : Cursor} {t : Token} {ts : List Token} (h : c.rest = t :: ts) :
    c.skip = ⟨some t.kind, ts⟩ := by
  obtain ⟨last, rest⟩ := c
  cases h
  rfl

theorem Cursor.advance_append (last : Option TokenKind) (ts : List Token) (t : Token)
    (rest : List Token) :
    Cursor.advance (ts.length + 1) ⟨last, ts ++ t :: rest⟩ = ⟨some t.kind, rest⟩ := by
  induction ts generalizing last with
  | nil => rfl
  | cons s ts ih => exact ih (some s.kind)

theorem group?_eq_some {ts inside after : List Token} (h : group? ts = some (inside, after)) :
    ∃ op p closing q,
      ts = ⟨.operator op, p⟩ :: (inside ++ ⟨.operator closing, q⟩ :: after) := by
  unfold group? at h
  split at h
  · rename_i op p ts
    obtain ⟨closing, -, hsplit⟩ := Option.bind_eq_some_iff.mp h
    obtain ⟨q, rfl⟩ := splitGroup_eq_some hsplit
    exact ⟨op, p, closing, q, rfl⟩
  · cases h

theorem head_eq_some {ts : List Token} {kind : TokenKind} (h : ts.head?.map (·.kind) = some kind) :
    ∃ p us, ts = ⟨kind, p⟩ :: us := by
  cases ts with
  | nil => cases h
  | cons t us =>
    cases h
    exact ⟨t.position, us, rfl⟩

theorem startsParameters_eq_true {ts : List Token} (h : Reader.startsParameters ts = true) :
    ∃ p us, ts = ⟨.operator .leftBracket, p⟩ :: us := by
  unfold Reader.startsParameters at h
  split at h
  · exact ⟨_, _, rfl⟩
  · cases h

namespace Reader

variable {α β : Type} {r : Reader α} {c : Cursor}

/-- Whatever the reader yields at the cursor has the property. It may also fail. -/
def Yields (r : Reader α) (c : Cursor) (post : Reading α → Prop) : Prop :=
  ∀ a, r c = .ok a → post a

theorem Yields.mono {post weaker : Reading α → Prop} (h : r.Yields c post)
    (hw : ∀ a, post a → weaker a) : r.Yields c weaker :=
  fun a ha => hw a (h a ha)

@[simp] theorem yields_bind {f : α → Reader β} {post : Reading β → Prop} :
    (r >>= f).Yields c post ↔ r.Yields c fun a =>
      (f a.value).Yields a.cursor fun b => post ⟨b.value, a.literals ++ b.literals, b.cursor⟩ := by
  constructor
  · intro h a ha b hb
    apply h
    simp [ha, hb, Except.bind]
  · intro h b hb
    rw [bind_apply] at hb
    cases ha : r c with
    | error e => simp [ha, Except.bind] at hb
    | ok a =>
      cases hf : f a.value a.cursor with
      | error e => simp [ha, hf, Except.bind] at hb
      | ok b' =>
        simp only [ha, hf, Except.bind, Except.ok.injEq] at hb
        exact hb ▸ h a ha b' hf

theorem yields_of_eq_ok {a : Reading α} {post : Reading α → Prop} (h : r c = .ok a) :
    r.Yields c post ↔ post a := by
  simp [Yields, h]

@[simp] theorem yields_pure {a : α} {post : Reading α → Prop} :
    (pure a : Reader α).Yields c post ↔ post ⟨a, [], c⟩ := yields_of_eq_ok rfl

theorem yields_ite {p : Prop} [Decidable p] {other : Reader α} {post : Reading α → Prop} :
    (if p then r else other).Yields c post ↔
      (p → r.Yields c post) ∧ (¬ p → other.Yields c post) := by
  split <;> simp [*]

@[simp] theorem yields_fail {problem : Problem} {post : Reading α → Prop} :
    (fail problem : Reader α).Yields c post ↔ True := by
  simp [Yields, fail]

@[simp] theorem yields_failAtEnd {problem : Problem} {post : Reading α → Prop} :
    (failAtEnd problem : Reader α).Yields c post ↔ True := by
  simp [Yields, failAtEnd]

@[simp] theorem yields_ahead {post : Reading (List Token) → Prop} :
    ahead.Yields c post ↔ post ⟨c.rest, [], c⟩ := yields_of_eq_ok rfl

@[simp] theorem yields_peek {post : Reading (Option TokenKind) → Prop} :
    peek.Yields c post ↔ post ⟨c.rest.head?.map (·.kind), [], c⟩ := yields_of_eq_ok rfl

@[simp] theorem yields_skip {post : Reading Unit → Prop} :
    skip.Yields c post ↔ post ⟨(), [], c.skip⟩ := yields_of_eq_ok rfl

@[simp] theorem yields_advance {n : Nat} {post : Reading Unit → Prop} :
    (advance n).Yields c post ↔ post ⟨(), [], c.advance n⟩ := yields_of_eq_ok rfl

@[simp] theorem yields_lookahead {post : Reading α → Prop} :
    (lookahead r).Yields c post ↔ r.Yields c fun a => post ⟨a.value, [], c⟩ := by
  cases hr : r c with
  | error e => simp [Yields, lookahead, hr, bind, Except.bind]
  | ok a => simp [Yields, lookahead, hr, bind, Except.bind]

@[simp] theorem yields_ident {post : Reading String → Prop} :
    ident.Yields c post ↔ ∀ name p ts, c.rest = ⟨.ident name, p⟩ :: ts →
      post ⟨name, [], ⟨some (.ident name), ts⟩⟩ := by
  obtain ⟨last, _ | ⟨⟨kind, p⟩, ts⟩⟩ := c
  · simp [ident]
  · cases kind <;> simp [ident]

@[simp] theorem yields_expect {op : Operator} {post : Reading Unit → Prop} :
    (expect op).Yields c post ↔ ∀ p ts, c.rest = ⟨.operator op, p⟩ :: ts →
      post ⟨(), [], ⟨some (.operator op), ts⟩⟩ := by
  obtain ⟨last, _ | ⟨⟨kind, p⟩, ts⟩⟩ := c
  · simp [expect]
  · by_cases hkind : kind = .operator op
    · simp [expect, hkind]
    · simp [expect, hkind]

@[simp] theorem yields_skipIf {kind : TokenKind} {post : Reading Unit → Prop} :
    (skipIf kind).Yields c post ↔
      post ⟨(), [], if c.rest.head?.map (·.kind) = some kind then c.skip else c⟩ := by
  simp only [skipIf, yields_bind, yields_peek]
  split <;> simp

theorem yields_structType {name : Option String} {fields : Reader (List (FieldDecl WrittenType))}
    {last : Option TokenKind} {p : Position} {rest : List Token}
    {post : Reading WrittenType → Prop} :
    (structType name fields).Yields ⟨last, ⟨.ident "struct", p⟩ :: rest⟩ post ↔
      ∀ q ts, rest = ⟨.operator .leftBrace, q⟩ :: ts →
        fields.Yields ⟨some (.operator .leftBrace), ts⟩ fun a =>
          post ⟨.struct a.value, ⟨p, name, a.value⟩ :: a.literals, a.cursor⟩ := by
  have henclose {c : Cursor} {literal : List (FieldDecl WrittenType) → StructLiteral}
      {post : Reading (List (FieldDecl WrittenType)) → Prop} :
      (enclose literal fields).Yields c post ↔ fields.Yields c fun a =>
        post ⟨a.value, literal a.value :: a.literals, a.cursor⟩ := by
    cases hf : fields c with
    | error e => simp [Yields, hf, Except.bind]
    | ok a => simp [Yields, hf, Except.bind]
  simp [structType, henclose]

end Reader

end FieldOrder.Source
