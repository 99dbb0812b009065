import FieldOrder.Proofs.Source.Yields

/-! The loops of the readers, put as rounds: what is read once, and what is read again behind it. -/
namespace FieldOrder.Source.Reader

variable {α : Type}

/-- A round, and then those after it unless it was the last. -/
def andOn (round : Reader (Option (List α))) (again : Reader (List α)) : Reader (List α) := do
  match ← round with
  | none => return []
  | some found => return found ++ (← again)

def specRound (fuel : Nat) : Reader (Option (List TypeSpec)) := do
  match ← peek with
  | some .semicolon => skip; return some []
  | some (.operator .rightParen) => skip; return none
  | none => fail .endInTypeDeclaration
  | some _ => return some [← typeSpec fuel]

def fieldRound (fuel room : Nat) : Reader (Option (List (FieldDecl WrittenType))) := do
  match ← peek with
  | some .semicolon => skip; return some []
  | some (.operator .rightBrace) => skip; return none
  | none => fail .endInStruct
  | some _ =>
    let fields ← fieldDecl (groupInside fuel room) (typeExpr fuel room)
    fieldEnd
    return some fields

/-- One round on the way to the end of a group, given the number of tokens up to there: it is
reached, or a struct literal or a token is passed over. -/
def insideRound (fuel room : Nat) : (left : Nat) → Reader (Option Nat)
  | 0 => pure none
  | left + 1 => do
    match ← ahead with
    | ts@(⟨.ident "struct", _⟩ :: ⟨.operator .leftBrace, _⟩ :: _) =>
      discard (structType none (fieldList fuel room))
      return some (left + 1 - (ts.length - (← ahead).length))
    | _ => skip; return some left

theorem bind_assoc {β γ : Type} (r : Reader α) (f : α → Reader β) (g : β → Reader γ) :
    r >>= f >>= g = r >>= fun a => f a >>= g := by
  funext c
  simp only [bind_apply]
  cases r c with
  | error e => rfl
  | ok a =>
    simp only [Except.bind]
    cases f a.value a.cursor with
    | error e => rfl
    | ok b =>
      simp only
      cases g b.value b.cursor with
      | error e => rfl
      | ok d => simp only [List.append_assoc]

theorem pure_bind {β : Type} (a : α) (f : α → Reader β) : pure a >>= f = f a := by
  funext c
  simp only [bind_apply, pure_apply, Except.bind]
  cases f a c with
  | error e => rfl
  | ok b => simp only [List.nil_append]

theorem bind_pure (r : Reader α) : r >>= pure = r := by
  funext c
  simp only [bind_apply, pure_apply]
  cases r c with
  | error e => rfl
  | ok a => simp only [Except.bind, List.append_nil]

theorem typeSpecs_succ (fuel : Nat) :
    typeSpecs (fuel + 1) = (specRound fuel).andOn (typeSpecs fuel) := by
  simp only [typeSpecs, andOn, specRound, bind_assoc]
  congr 1
  funext kind
  split
  · simp only [bind_assoc, pure_bind, List.nil_append, bind_pure]
  · simp only [bind_assoc, pure_bind]
  · rfl
  · simp only [bind_assoc, pure_bind, List.cons_append, List.nil_append]

theorem fieldList_succ (fuel room : Nat) :
    fieldList (fuel + 1) room = (fieldRound fuel room).andOn (fieldList fuel room) := by
  simp only [fieldList, andOn, fieldRound, bind_assoc]
  congr 1
  funext kind
  split
  · simp only [bind_assoc, pure_bind, List.nil_append, bind_pure]
  · simp only [bind_assoc, pure_bind]
  · rfl
  · simp only [bind_assoc, pure_bind]

theorem groupInside_succ (fuel room left : Nat) : groupInside (fuel + 1) room left = (do
    match ← insideRound fuel room left with
    | none => pure ()
    | some left => groupInside fuel room left) := by
  cases left with
  | zero => simp only [groupInside, insideRound, pure_bind]
  | succ left =>
    simp only [groupInside, insideRound, bind_assoc]
    congr 1
    funext ts
    split
    · simp only [bind_assoc, pure_bind]
    · simp only [bind_assoc, pure_bind]

end FieldOrder.Source.Reader
