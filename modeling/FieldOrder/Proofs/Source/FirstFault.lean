import FieldOrder.Proofs.Source.ByteOffsets
import FieldOrder.Proofs.Source.Semicolons

/-! Where scanning stops. The error of a source is at the first place where nothing can be taken.
The source up to this place has tokens, and they are those that were found before the error. -/
namespace FieldOrder.Source

namespace TokenStream

/-! ### The tokens so far -/

def endsStatement (tokens : List Token) : Bool := tokens.getLast?.any (·.kind.canEndStatement)

def push (tokens : List Token) (l : Lexeme) : List Token :=
  match l.token? with
  | some kind => tokens ++ [⟨kind, l.position⟩]
  | none =>
    if endsStatement tokens && l.breaksLine then tokens ++ [⟨.semicolon, l.position⟩] else tokens

def soFar (ls : List Lexeme) : List Token := ls.foldl push []

def due (stop : Position) (tokens : List Token) : List Token :=
  if endsStatement tokens then [⟨.semicolon, stop⟩] else []

theorem endsStatement_concat (tokens : List Token) (t : Token) :
    endsStatement (tokens ++ [t]) = t.kind.canEndStatement := by
  rw [endsStatement, List.getLast?_concat, Option.any_some]

theorem append_insertSemicolons (stop : Position) (tokens : List Token) (ls : List Lexeme) :
    tokens ++ insertSemicolons stop (endsStatement tokens) ls =
      ls.foldl push tokens ++ due stop (ls.foldl push tokens) := by
  induction ls generalizing tokens with
  | nil => rfl
  | cons l ls ih =>
    rw [List.foldl_cons, ← ih, push]
    cases htoken : l.token? with
    | some kind =>
      rw [insertSemicolons_token htoken, endsStatement_concat, List.append_assoc,
        List.singleton_append]
    | none =>
      rw [insertSemicolons_silent htoken]
      by_cases hends : (endsStatement tokens && l.breaksLine) = true
      · simp only [hends, if_pos]
        rw [endsStatement_concat, List.append_assoc, List.singleton_append]
        rfl
      · simp only [hends]
        rfl

theorem insertSemicolons_eq_soFar (stop : Position) (ls : List Lexeme) :
    insertSemicolons stop false ls = soFar ls ++ due stop (soFar ls) :=
  append_insertSemicolons stop [] ls

/-! ### The place of the error -/

theorem ofSource_joined {ps : List Piece} (h : Piece.Split ps) :
    ofSource (Piece.joined ps) =
      .ok ⟨soFar (Piece.place .start ps) ++
        due (Position.start.after (Piece.joined ps)) (soFar (Piece.place .start ps)),
        Position.start.after (Piece.joined ps)⟩ := by
  rw [← insertSemicolons_eq_soFar, ofSource, Lexeme.ofSource, Lexeme.scan_joined h]
  rfl

/-- The error of a source leads to a place in it. Up to this place the source is split into pieces
and has the tokens found so far, and at this place nothing can be taken. In a source of less than
2³² bytes both are told as they are. -/
theorem error_at_first_fault {source : List Char} {e : SyntaxError}
    (h : ofSource source = .error e) :
    ∃ ps rest, source = Piece.joined ps ++ rest ∧ Piece.SplitBefore rest ps ∧
      e.position.offset? source = some (byteLength (Piece.joined ps)) ∧
      byteLength (Piece.joined ps) < byteLength source ∧
      ofSource (Piece.joined ps) = .ok ⟨soFar (Piece.place .start ps) ++
        due e.position (soFar (Piece.place .start ps)), e.position⟩ ∧
      Fault rest e.problem ∧
      (byteLength source < UInt32.size → listing source = .error e ∧
        listing (Piece.joined ps) = ofSource (Piece.joined ps)) := by
  have hscan : Lexeme.scan 0 .start source = .error e :=
    Lexeme.scan_eq_error_of_visible (ofSource_eq_error_iff.mp h)
  obtain ⟨ps, rest, rfl, hsplit, hfault, hposition⟩ := Lexeme.scan_eq_error_iff.mp hscan
  have hlt : byteLength (Piece.joined ps) < byteLength (Piece.joined ps ++ rest) := by
    rw [byteLength_append]
    exact Nat.lt_add_of_pos_right (byteLength_pos hfault.ne_nil)
  refine ⟨ps, rest, rfl, hsplit, ?_, hlt, ?_, hfault, ?_⟩
  · rw [hposition]
    exact Position.offset?_after (Piece.joined ps) rest
  · rw [hposition]
    exact ofSource_joined hsplit.split
  · intro hsize
    refine ⟨?_, listing_eq_ofSource (hlt.trans hsize) (told_after_of_lt hfault.ne_nil hsize)⟩
    rw [listing, h]
    exact congrArg Except.error (told_error h hsize)

/-- The raw string is closed and the comment behind it is not, though it holds a star and a
slash. -/
theorem error_at_first_fault_of_comment :
    ofSource "x = \x60\n\x60 /*/ y * /".toList = .error ⟨⟨2, 3⟩, .openComment⟩ ∧
      ∃ ps rest, "x = \x60\n\x60 /*/ y * /".toList = Piece.joined ps ++ rest ∧
        (⟨2, 3⟩ : Position).offset? "x = \x60\n\x60 /*/ y * /".toList =
          some (byteLength (Piece.joined ps)) ∧
        ofSource (Piece.joined ps) = .ok ⟨soFar (Piece.place .start ps) ++
          due ⟨2, 3⟩ (soFar (Piece.place .start ps)), ⟨2, 3⟩⟩ ∧
        Fault rest .openComment ∧
        listing "x = \x60\n\x60 /*/ y * /".toList = .error ⟨⟨2, 3⟩, .openComment⟩ ∧
        listing (Piece.joined ps) = ofSource (Piece.joined ps) := by
  have herror : ofSource "x = \x60\n\x60 /*/ y * /".toList = .error ⟨⟨2, 3⟩, .openComment⟩ := by
    decide +kernel
  obtain ⟨ps, rest, hsource, -, hoffset, -, hbefore, hfault, htold⟩ := error_at_first_fault herror
  exact ⟨herror, ps, rest, hsource, hoffset, hbefore, hfault, htold (by decide +kernel)⟩

end TokenStream

end FieldOrder.Source
