import FieldOrder.Proofs.Source.Enclosures
import FieldOrder.Proofs.Source.Spelling

/-! How a source is split. The scanner takes piece after piece up to the end of the source, or up to
a place where nothing can be taken. A piece is judged with all the text behind it, since the scanner
looks ahead, but it stays the same if some of this text is cut off. -/
namespace FieldOrder.Source

theorem Position.after_append (p : Position) (u v : List Char) :
    p.after (u ++ v) = (p.after u).after v :=
  List.foldl_append

theorem Position.line_after (p : Position) (cs : List Char) :
    (p.after cs).line = p.line + cs.count '\n' := by
  induction cs generalizing p with
  | nil => rfl
  | cons c cs ih =>
    have hstep : (p.after (c :: cs)).line = (p.advance c).line + cs.count '\n' := ih (p.advance c)
    rw [hstep, advance, List.count_cons]
    by_cases hc : c = '\n'
    · simp only [hc, if_pos, beq_self_eq_true]
      omega
    · simp [hc]

/-! ### Pieces in front of a text -/

namespace Piece

variable {a : Piece} {ps : List Piece} {v w : List Char}

theorem Taken.longestStart (h : a.Taken v) : LongestStart (a.text ++ v) a.kind a.text := by
  obtain ⟨hlong, -⟩ := longestStart_of_longestMatch h.longest
  simpa using hlong

theorem Taken.of_append (h : a.Taken (v ++ w)) : a.Taken v := by
  have hlong := h.longestStart
  have hshort : LongestStart (a.text ++ v) a.kind a.text := by
    refine ⟨List.prefix_append _ _, hlong.isText, fun hu hmatches => ?_⟩
    exact hlong.longest (hu.trans ⟨w, List.append_assoc ..⟩) hmatches
  exact hshort.taken h.closed

def SplitBefore (v : List Char) : List Piece → Prop
  | [] => True
  | a :: ps => a.Taken (joined ps ++ v) ∧ SplitBefore v ps

theorem SplitBefore.split (h : SplitBefore v ps) : Split ps := by
  induction ps with
  | nil => trivial
  | cons a ps ih => exact ⟨h.1.of_append, ih h.2⟩

end Piece

/-! ### Faults -/

/-- Why nothing can be taken at the start of a text. No rule matches there, or no more than the
opening of a comment or raw string that is never closed. -/
inductive Fault : List Char → Problem → Prop
  | unexpected {rest t : List Char} (hnone : ∀ (k : LexemeKind) u, u <+: rest → ¬ k.Matches u)
    (ht : Offending rest t) : Fault rest (.unexpected t)
  | unclosed {rest : List Char} (e : Enclosure)
    (hlong : LongestStart (e.opening ++ rest) e.openKind e.opening)
    (hopen : ¬ e.closing <:+: rest) :
    Fault (e.opening ++ rest) e.problem

variable {rest : List Char} {problem : Problem}

theorem Fault.ne_nil (h : Fault rest problem) : rest ≠ [] := by
  cases h with
  | unexpected hnone ht =>
    intro hrest
    exact ht.ne_nil (List.prefix_nil.mp (hrest ▸ ht.isPrefix))
  | unclosed e => cases e <;> simp [Enclosure.opening]

theorem LongestStart.fault {u : List Char} {e : Enclosure} (h : LongestStart rest e.openKind u) :
    Fault rest e.problem := by
  obtain ⟨behind, rfl, hopen⟩ := Enclosure.not_closing_of_longestStart h
  obtain rfl := Enclosure.matches_opening.mp h.isText
  exact .unclosed e h hopen

namespace Lexeme

variable {p : Position} {source v : List Char} {ps : List Piece} {ls : List Lexeme}
  {e : SyntaxError}

theorem scan_eq_error_of_visible (h : visible p source = .error e) :
    scan 0 p source = .error e := by
  unfold visible at h
  cases hscan : scan 0 p source with
  | error e' =>
    rw [hscan] at h
    exact h
  | ok ls =>
    rw [hscan] at h
    cases h

theorem scan_fault (h : Fault rest problem) (p : Position) :
    scan 0 p rest = .error ⟨p, problem⟩ := by
  apply scan_eq_error_of_visible
  cases h with
  | unexpected hnone ht => exact visible_unexpected hnone ht p
  | unclosed e hlong => cases e with
    | comment => exact visible_opening hlong (.inl rfl) p
    | rawString => exact visible_opening hlong (.inr rfl) p

theorem scan_splitBefore (h : Piece.SplitBefore v ps) (p : Position) :
    scan 0 p (Piece.joined ps ++ v) =
      (scan 0 (p.after (Piece.joined ps)) v).map (Piece.place p ps ++ ·) := by
  induction ps generalizing p with
  | nil =>
    cases hscan : scan 0 p v <;>
      simp [Piece.joined, Piece.place, Position.after, hscan, Except.map]
  | cons a ps ih =>
    rw [Piece.joined_cons, List.append_assoc, scan_taken h.1, ih h.2, Position.after_append]
    cases scan 0 ((p.after a.text).after (Piece.joined ps)) v <;> rfl

/-- Every source is split into pieces up to its end or up to a fault. -/
theorem exists_splitBefore (source : List Char) : ∃ ps rest, source = Piece.joined ps ++ rest ∧
    Piece.SplitBefore rest ps ∧ (rest = [] ∨ ∃ problem, Fault rest problem) := by
  induction hlength : source.length using Nat.strongRecOn generalizing source with
  | ind n ih =>
    cases source with
    | nil => exact ⟨[], [], rfl, trivial, .inl rfl⟩
    | cons c cs =>
      cases hmatch : longestMatch Rule.all (c :: cs) with
      | none =>
        have hnone := longestMatch_eq_none_iff.mp hmatch
        exact ⟨[], c :: cs, rfl, trivial,
          .inr ⟨_, .unexpected hnone (offending_unexpectedText c cs)⟩⟩
      | some kn =>
        obtain ⟨k, m⟩ := kn
        obtain ⟨hlong, -⟩ := longestStart_of_longestMatch hmatch
        by_cases hopen : ∃ e : Enclosure, k = e.openKind
        · obtain ⟨e, rfl⟩ := hopen
          exact ⟨[], c :: cs, rfl, trivial, .inr ⟨_, hlong.fault⟩⟩
        · have hclosed := Enclosure.ne_openKind.mp fun e he => hopen ⟨e, he⟩
          generalize (c :: cs).take m = u at hlong
          obtain ⟨v, hv⟩ := hlong.isPrefix
          have hshorter : v.length < n := by
            have hpos := List.length_pos_iff.mpr (LexemeKind.ne_nil_of_matches hlong.isText)
            rw [← hlength, ← hv, List.length_append]
            omega
          obtain ⟨ps, rest, rfl, hsplit, hrest⟩ := ih v.length hshorter v rfl
          rw [← hv] at hlong
          refine ⟨⟨k, u⟩ :: ps, rest, ?_, ⟨hlong.taken hclosed, hsplit⟩, hrest⟩
          rw [← hv, Piece.joined_cons, List.append_assoc]

theorem scan_eq_ok_iff :
    scan 0 p source = .ok ls ↔
      ∃ ps, source = Piece.joined ps ∧ Piece.Split ps ∧ ls = Piece.place p ps := by
  constructor
  · intro h
    obtain ⟨ps, rest, rfl, hsplit, hrest⟩ := exists_splitBefore source
    rw [scan_splitBefore hsplit] at h
    obtain rfl | ⟨problem, hfault⟩ := hrest
    · cases h
      exact ⟨ps, List.append_nil _, hsplit.split, List.append_nil _⟩
    · rw [scan_fault hfault] at h
      cases h
  · intro h
    obtain ⟨ps, rfl, hsplit, rfl⟩ := h
    exact scan_joined hsplit p

theorem scan_eq_error_iff :
    scan 0 p source = .error e ↔ ∃ ps rest, source = Piece.joined ps ++ rest ∧
      Piece.SplitBefore rest ps ∧ Fault rest e.problem ∧
        e.position = p.after (Piece.joined ps) := by
  constructor
  · intro h
    obtain ⟨ps, rest, rfl, hsplit, hrest⟩ := exists_splitBefore source
    rw [scan_splitBefore hsplit] at h
    obtain rfl | ⟨problem, hfault⟩ := hrest
    · cases h
    · rw [scan_fault hfault] at h
      cases h
      exact ⟨ps, rest, rfl, hsplit, hfault, rfl⟩
  · intro h
    obtain ⟨ps, rest, rfl, hsplit, hfault, hposition⟩ := h
    rw [scan_splitBefore hsplit, scan_fault hfault, ← hposition]
    rfl

structure Tiling (p : Position) (source : List Char) (ls : List Lexeme) : Prop where
  text : ls.flatMap (·.text) = source
  position {before after : List Lexeme} {l : Lexeme} (h : ls = before ++ l :: after) :
    l.position = p.after (before.flatMap (·.text))
  isText {l : Lexeme} (h : l ∈ ls) : l.kind.Matches l.text

theorem tiling_place (h : Piece.Split ps) (p : Position) :
    Tiling p (Piece.joined ps) (Piece.place p ps) := by
  induction ps generalizing p with
  | nil => exact ⟨rfl, fun h => by simp [Piece.place] at h, nofun⟩
  | cons a ps ih =>
    have hrest := ih h.2 (p.after a.text)
    refine ⟨?_, ?_, ?_⟩
    · rw [Piece.place, List.flatMap_cons, hrest.text, Piece.joined_cons]
    · intro before after l heq
      cases before with
      | nil =>
        cases heq
        rfl
      | cons first before =>
        obtain ⟨rfl, hbehind⟩ := List.cons.inj heq
        rw [hrest.position hbehind, List.flatMap_cons, Position.after_append]
    · intro l hl
      obtain rfl | hl := List.mem_cons.mp hl
      · exact h.1.longestStart.isText
      · exact hrest.isText hl

theorem tiling_of_scan (h : scan 0 p source = .ok ls) : Tiling p source ls := by
  obtain ⟨ps, rfl, hsplit, rfl⟩ := scan_eq_ok_iff.mp h
  exact tiling_place hsplit p

end Lexeme

end FieldOrder.Source
