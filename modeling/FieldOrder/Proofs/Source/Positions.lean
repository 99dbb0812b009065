import FieldOrder.Proofs.Layout.Placement
import FieldOrder.Proofs.Source.Scanning
import FieldOrder.Source.Token
import Mathlib.Data.List.Infix

/-! The tokens of a file stand one behind the other, so that a position belongs to one token
only. -/
namespace FieldOrder.Source

namespace Position

def Before (p q : Position) : Prop := p.line < q.line ∨ p.line = q.line ∧ p.column < q.column

variable {p q r : Position}

theorem Before.trans (h : p.Before q) (h' : q.Before r) : p.Before r := by
  unfold Before at *
  omega

theorem not_before_self (p : Position) : ¬ p.Before p := by
  unfold Before
  omega

theorem before_advance (p : Position) (c : Char) : p.Before (p.advance c) := by
  have hsize := c.utf8Size_pos
  unfold Before advance
  split
  · exact .inl (Nat.lt_succ_self _)
  · exact .inr ⟨rfl, by simpa using hsize⟩

theorem before_after (p : Position) {cs : List Char} (hcs : cs ≠ []) : p.Before (p.after cs) := by
  induction cs generalizing p with
  | nil => exact absurd rfl hcs
  | cons c cs ih =>
    cases cs with
    | nil => exact before_advance p c
    | cons d ds => exact (before_advance p c).trans (ih (p.advance c) (by simp))

end Position

namespace Lexeme

theorem scan_zero_eq_ok {p : Position} {c : Char} {cs : List Char} {ls : List Lexeme}
    (h : scan 0 p (c :: cs) = .ok ls) :
    ∃ kind n rest, ls = ⟨kind, (c :: cs).take n, p⟩ :: rest ∧
      scan (n - 1) (p.advance c) cs = .ok rest := by
  rw [scan_zero_cons] at h
  split at h
  · cases h
  · cases h
  · cases h
  · rename_i kind n _ _ _
    cases hrest : scan (n - 1) (p.advance c) cs with
    | error e =>
      rw [hrest] at h
      cases h
    | ok rest =>
      rw [hrest] at h
      cases h
      exact ⟨kind, n, rest, rfl, hrest⟩

/-- Lexemes start at or behind the place where scanning starts, before the end of the text, and one
behind the other. -/
theorem scan_positions {owed : Nat} {p : Position} {cs : List Char} {ls : List Lexeme}
    (h : scan owed p cs = .ok ls) :
    (∀ l ∈ ls, (l.position = p ∨ p.Before l.position) ∧ l.position.Before (p.after cs)) ∧
      ls.Pairwise (·.position.Before ·.position) := by
  induction cs generalizing owed p ls with
  | nil =>
    cases h
    simp
  | cons c cs ih =>
    have hbehind {l : Lexeme} (hl : l.position = p.advance c ∨ (p.advance c).Before l.position) :
        p.Before l.position := by
      obtain heq | hbefore := hl
      · exact heq ▸ p.before_advance c
      · exact (p.before_advance c).trans hbefore
    cases owed with
    | succ n =>
      obtain ⟨hall, hpairs⟩ := ih h
      exact ⟨fun l hl => ⟨.inr (hbehind (hall l hl).1), (hall l hl).2⟩, hpairs⟩
    | zero =>
      obtain ⟨kind, n, rest, rfl, hrest⟩ := scan_zero_eq_ok h
      obtain ⟨hall, hpairs⟩ := ih hrest
      refine ⟨?_, List.pairwise_cons.mpr ⟨fun l hl => hbehind (hall l hl).1, hpairs⟩⟩
      intro l hl
      obtain rfl | hl := List.mem_cons.mp hl
      · exact ⟨.inl rfl, p.before_after (by simp)⟩
      · exact ⟨.inr (hbehind (hall l hl).1), (hall l hl).2⟩

end Lexeme

namespace TokenStream

/-- A token stands for a lexeme, or is a semicolon at a line break or at the end of the source. -/
theorem origin_of_mem_insertSemicolons {stop : Position} {pending : Bool} {ls : List Lexeme}
    {t : Token} (h : t ∈ insertSemicolons stop pending ls) :
    t = ⟨.semicolon, stop⟩ ∨ ∃ l ∈ ls, t.position = l.position ∧
      (l.token? = some t.kind ∨ l.token? = none ∧ l.breaksLine = true ∧ t.kind = .semicolon) := by
  induction ls generalizing pending with
  | nil =>
    unfold insertSemicolons at h
    split at h
    · exact .inl (List.mem_singleton.mp h)
    · cases h
  | cons l ls ih =>
    have hrest {pending : Bool} (h : t ∈ insertSemicolons stop pending ls) :
        t = ⟨.semicolon, stop⟩ ∨ ∃ l' ∈ l :: ls, t.position = l'.position ∧
          (l'.token? = some t.kind ∨ l'.token? = none ∧ l'.breaksLine = true ∧
            t.kind = .semicolon) :=
      (ih h).imp_right fun ⟨l', hl', horigin⟩ => ⟨l', List.mem_cons_of_mem _ hl', horigin⟩
    unfold insertSemicolons at h
    split at h
    next kind htoken =>
      obtain rfl | h := List.mem_cons.mp h
      · exact .inr ⟨l, List.mem_cons_self, rfl, .inl htoken⟩
      · exact hrest h
    next htoken =>
      split at h
      next hends =>
        obtain rfl | h := List.mem_cons.mp h
        · exact .inr ⟨l, List.mem_cons_self, rfl,
            .inr ⟨htoken, (Bool.and_eq_true_iff.mp hends).2, rfl⟩⟩
        · exact hrest h
      next => exact hrest h

theorem pairwise_insertSemicolons {stop : Position} {pending : Bool} {ls : List Lexeme}
    (hpairs : ls.Pairwise (·.position.Before ·.position))
    (hstop : ∀ l ∈ ls, l.position.Before stop) :
    (insertSemicolons stop pending ls).Pairwise (·.position.Before ·.position) := by
  induction ls generalizing pending with
  | nil =>
    unfold insertSemicolons
    split <;> simp
  | cons l ls ih =>
    obtain ⟨hl, hpairs⟩ := List.pairwise_cons.mp hpairs
    obtain ⟨hlast, hstop⟩ := List.forall_mem_cons.mp hstop
    have hcons {kind : TokenKind} {pending : Bool} :
        (⟨kind, l.position⟩ :: insertSemicolons stop pending ls).Pairwise
          (·.position.Before ·.position) := by
      refine List.pairwise_cons.mpr ⟨fun t ht => ?_, ih hpairs hstop⟩
      obtain rfl | ⟨l', hl', heq, -⟩ := origin_of_mem_insertSemicolons ht
      · exact hlast
      · exact heq ▸ hl l' hl'
    unfold insertSemicolons
    split
    · exact hcons
    · split
      · exact hcons
      · exact ih hpairs hstop

theorem pairwise_position {source : List Char} {stream : TokenStream}
    (h : ofSource source = .ok stream) : stream.tokens.Pairwise (·.position.Before ·.position) := by
  obtain ⟨ls, hls, heq⟩ := bind_eq_ok.mp h
  cases heq
  obtain ⟨hall, hpairs⟩ := Lexeme.scan_positions hls
  exact pairwise_insertSemicolons hpairs fun l hl => (hall l hl).2

end TokenStream

theorem eq_of_position {tokens place other : List Token} {t t' : Token}
    (h : tokens.Pairwise (·.position.Before ·.position)) (hplace : t :: place <:+ tokens)
    (hother : t' :: other <:+ tokens) (heq : t.position = t'.position) :
    t :: place = t' :: other := by
  -- Of two places, one is at or behind the other.
  have hle {t t' : Token} {place other : List Token} (hplace : t :: place <:+ tokens)
      (hother : t' :: other <:+ tokens) (heq : t.position = t'.position)
      (hlength : other.length ≤ place.length) : t :: place = t' :: other := by
    have hsuffix : t' :: other <:+ t :: place :=
      List.suffix_of_suffix_length_le hother hplace (by simpa using hlength)
    obtain heq' | hrest := List.suffix_cons_iff.mp hsuffix
    · exact heq'.symm
    · have hbefore := (List.pairwise_cons.mp (h.sublist hplace.sublist)).1 t'
        (hrest.subset List.mem_cons_self)
      exact absurd (heq ▸ hbefore) (Position.not_before_self _)
  obtain hlength | hlength := Nat.le_total other.length place.length
  · exact hle hplace hother heq hlength
  · exact (hle hother hplace heq.symm hlength).symm

end FieldOrder.Source
