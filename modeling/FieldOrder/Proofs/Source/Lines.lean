import FieldOrder.Proofs.Source.ByteOffsets
import FieldOrder.Proofs.Source.Semicolons

/-! Sources put one below the other. What is complete at the end of a source is not changed by a
line break and what stands below it. So the tokens of the whole are those of the upper source and,
further down, those of the lower one. -/
namespace FieldOrder.Source

/-! ### What a line break ends -/

/-- No lexeme goes on over the line break below it: it would have to be a comment or raw string, and
these are closed in front of the line break or not at all. -/
theorem LongestStart.before_newline {u v : List Char} {k : LexemeKind}
    (h : LongestStart (u ++ v) k u)
    (hclosed : ∀ e : Enclosure, k ≠ e.openKind) (lower : List Char) :
    LongestStart (u ++ (v ++ '\n' :: lower)) k u := by
  refine ⟨List.prefix_append _ _, h.isText, fun {k' w} hw hmatches => ?_⟩
  rw [← List.append_assoc] at hw
  obtain hlt | hle := Nat.lt_or_ge (u ++ v).length w.length
  · have hbreak : u ++ v ++ ['\n'] <+: w := by
      refine List.prefix_of_prefix_length_le ⟨lower, by simp⟩ hw ?_
      rw [List.length_append]
      exact hlt
    obtain ⟨-, rfl⟩ | ⟨e, -, henclosed⟩ := LexemeKind.of_newline_mem hmatches
      (hbreak.subset (by simp))
    · exact List.length_pos_iff.mpr (LexemeKind.ne_nil_of_matches h.isText)
    · have hupper := henclosed.opening_isPrefix hbreak
      have hlength := h.longest hupper (Enclosure.matches_opening.mpr rfl)
      obtain ⟨x, rfl⟩ := List.prefix_of_prefix_length_le hupper (List.prefix_append u v) hlength
      have hwhole : e.opening ++ x <+: w :=
        ((List.prefix_append _ _).trans (List.prefix_append _ _)).trans hbreak
      have heq := (Enclosure.encloses_of_matches h.isText (hclosed e)).eq_of_isPrefix henclosed
        hwhole
      exact Nat.le_of_eq (congrArg List.length heq.symm)
  · exact h.longest (List.prefix_of_prefix_length_le hw (List.prefix_append _ _) hle) hmatches

namespace Piece

theorem Taken.before_newline {a : Piece} {v : List Char} (h : a.Taken v) (lower : List Char) :
    a.Taken (v ++ '\n' :: lower) :=
  (h.longestStart.before_newline (Enclosure.ne_openKind.mpr h.closed) lower).taken h.closed

theorem Split.before_newline {ps : List Piece} (h : Split ps) (lower : List Char) :
    SplitBefore ('\n' :: lower) ps := by
  induction ps with
  | nil => trivial
  | cons a ps ih => exact ⟨h.1.before_newline lower, ih h.2⟩

end Piece

/-! ### Further down -/

namespace Position

def down (n : Nat) (p : Position) : Position := ⟨p.line + n, p.column⟩

end Position

def Lexeme.down (n : Nat) (l : Lexeme) : Lexeme := ⟨l.kind, l.text, l.position.down n⟩

def Token.down (n : Nat) (t : Token) : Token := ⟨t.kind, t.position.down n⟩

def SyntaxError.down (n : Nat) (e : SyntaxError) : SyntaxError := ⟨e.position.down n, e.problem⟩

namespace TokenStream

end TokenStream

end FieldOrder.Source
