import FieldOrder.Proofs.Source.Positions
import FieldOrder.Proofs.Source.Relexing
import Mathlib.Data.List.Nodup

/-! Where semicolons are put in. The lexemes of a source are cut into stretches, each of them a
token that is written in the source and what stands between it and the next one. A stretch gets a
semicolon exactly if its token can end a statement and a line break or the end of the source
follows. -/
namespace FieldOrder.Source

/-! ### One lexeme after the other -/

inductive TokenKind.EndsStatement : TokenKind → Prop
  | ident (name : String) : EndsStatement (.ident name)
  | number (text : String) : EndsStatement (.number text)
  | literal : EndsStatement .literal
  | operator {op : Operator} (h : op.text ∈ [")", "]", "\x7d", "++", "--"]) :
    EndsStatement (.operator op)

theorem TokenKind.canEndStatement_iff {kind : TokenKind} :
    kind.canEndStatement = true ↔ kind.EndsStatement := by
  cases kind with
  | ident name => exact ⟨fun _ => .ident name, fun _ => rfl⟩
  | number text => exact ⟨fun _ => .number text, fun _ => rfl⟩
  | literal => exact ⟨fun _ => .literal, fun _ => rfl⟩
  | semicolon => exact ⟨nofun, nofun⟩
  | operator op =>
    have hop : ∀ op ∈ Operator.all, (TokenKind.operator op).canEndStatement = true ↔
        op.text ∈ [")", "]", "\x7d", "++", "--"] := by decide
    have hall : op ∈ Operator.all := by cases op <;> decide
    refine (hop op hall).trans ⟨.operator, ?_⟩
    intro h
    cases h with
    | operator h => exact h

namespace TokenStream

variable {stop : Position} {pending : Bool} {l : Lexeme}

theorem insertSemicolons_token {kind : TokenKind} (h : l.token? = some kind) (ls : List Lexeme) :
    insertSemicolons stop pending (l :: ls) =
      ⟨kind, l.position⟩ :: insertSemicolons stop kind.canEndStatement ls := by
  rw [insertSemicolons, h]

theorem insertSemicolons_silent (h : l.token? = none) (ls : List Lexeme) :
    insertSemicolons stop pending (l :: ls) =
      if pending && l.breaksLine then ⟨.semicolon, l.position⟩ :: insertSemicolons stop false ls
      else insertSemicolons stop pending ls := by
  rw [insertSemicolons, h]

end TokenStream

/-! ### Stretches -/

/-- A token that is written in the source, the lexemes between it and the next one, and the
semicolons that are put in there. -/
structure Stretch where
  lexeme : Lexeme
  kind : TokenKind
  isToken : lexeme.token? = some kind
  gap : List Lexeme
  silent : ∀ l ∈ gap, l.token? = none
  inserted : List Token

/-- Where a line break is seen first: at a newline or a comment that holds one, or at the end of the
source. -/
inductive BreakAt (stop : Position) : List Lexeme → Position → Prop
  | here {l : Lexeme} {gap : List Lexeme} (h : '\n' ∈ l.text)
    (hkind : l.kind = .newline ∨ l.kind = .blockComment) : BreakAt stop (l :: gap) l.position
  | later {l : Lexeme} {gap : List Lexeme} {p : Position} (h : '\n' ∉ l.text)
    (hp : BreakAt stop gap p) :
    BreakAt stop (l :: gap) p
  | atEnd : BreakAt stop [] stop

namespace Stretch

def lexemes (s : Stretch) : List Lexeme := s.lexeme :: s.gap

def token (s : Stretch) : Token := ⟨s.kind, s.lexeme.position⟩

def tokens (s : Stretch) : List Token := s.token :: s.inserted

def between (s : Stretch) : List Char := s.gap.flatMap (·.text)

/-- One semicolon is put in if the token can end a statement and a line break or the end of the
source follows, and none otherwise. -/
structure Punctuated (s : Stretch) (isLast : Prop) (stop : Position) : Prop where
  inserted_iff : s.inserted ≠ [] ↔ s.kind.EndsStatement ∧ ('\n' ∈ s.between ∨ isLast)
  length_le : s.inserted.length ≤ 1
  place {t : Token} (h : t ∈ s.inserted) : t.kind = .semicolon ∧ BreakAt stop s.gap t.position

end Stretch

namespace TokenStream

def gapSemicolons (stop : Position) (isLast pending : Bool) : List Lexeme → List Token
  | [] => if pending && isLast then [⟨.semicolon, stop⟩] else []
  | l :: gap =>
    if pending && l.breaksLine then [⟨.semicolon, l.position⟩] else
      gapSemicolons stop isLast pending gap

theorem gapSemicolons_false (stop : Position) (isLast : Bool) (gap : List Lexeme) :
    gapSemicolons stop isLast false gap = [] := by
  induction gap with
  | nil => rfl
  | cons l gap ih => exact ih

theorem gapSemicolons_ne_nil_iff {stop : Position} {isLast pending : Bool} {gap : List Lexeme} :
    gapSemicolons stop isLast pending gap ≠ [] ↔
      pending = true ∧ ('\n' ∈ gap.flatMap (·.text) ∨ isLast = true) := by
  cases pending with
  | false => simp [gapSemicolons_false]
  | true =>
    induction gap with
    | nil => simp [gapSemicolons]
    | cons l gap ih =>
      rw [gapSemicolons, List.flatMap_cons, List.mem_append]
      by_cases hbreak : '\n' ∈ l.text
      · simp [Lexeme.breaksLine, hbreak]
      · simpa [Lexeme.breaksLine, hbreak] using ih

theorem length_gapSemicolons_le (stop : Position) (isLast pending : Bool) (gap : List Lexeme) :
    (gapSemicolons stop isLast pending gap).length ≤ 1 := by
  fun_induction gapSemicolons stop isLast pending gap with
  | case1 | case3 => exact Nat.le_refl 1
  | case2 => exact Nat.zero_le 1
  | case4 l gap _ ih => exact ih

theorem breakAt_of_mem_gapSemicolons {stop : Position} {isLast pending : Bool} {gap : List Lexeme}
    {t : Token} (htext : ∀ l ∈ gap, l.kind.Matches l.text) (hsilent : ∀ l ∈ gap, l.token? = none)
    (h : t ∈ gapSemicolons stop isLast pending gap) :
    t.kind = .semicolon ∧ BreakAt stop gap t.position := by
  cases pending with
  | false =>
    rw [gapSemicolons_false] at h
    cases h
  | true =>
    induction gap with
    | nil =>
      cases isLast with
      | false => cases h
      | true =>
        obtain rfl := List.mem_singleton.mp h
        exact ⟨rfl, .atEnd⟩
    | cons l gap ih =>
      obtain ⟨hl, htext⟩ := List.forall_mem_cons.mp htext
      obtain ⟨hnone, hsilent⟩ := List.forall_mem_cons.mp hsilent
      rw [gapSemicolons, Bool.true_and] at h
      by_cases hbreak : l.breaksLine = true
      · rw [if_pos hbreak] at h
        obtain rfl := List.mem_singleton.mp h
        have hkind := (Lexeme.of_breaksLine hl hnone hbreak).imp And.left And.left
        exact ⟨rfl, .here (by simpa [Lexeme.breaksLine] using hbreak) hkind⟩
      · rw [if_neg hbreak] at h
        obtain ⟨hkind, hp⟩ := ih htext hsilent h
        exact ⟨hkind, .later (by simpa [Lexeme.breaksLine] using hbreak) hp⟩

theorem exists_stretches (stop : Position) (pending : Bool) (ls : List Lexeme) :
    ∃ (lead : List Lexeme) (stretches : List Stretch),
      ls = lead ++ stretches.flatMap Stretch.lexemes ∧ (∀ l ∈ lead, l.token? = none) ∧
      insertSemicolons stop pending ls =
        gapSemicolons stop stretches.isEmpty pending lead ++ stretches.flatMap Stretch.tokens ∧
      ∀ s rest, s :: rest <:+ stretches →
        s.inserted = gapSemicolons stop rest.isEmpty s.kind.canEndStatement s.gap := by
  induction ls generalizing pending with
  | nil =>
    refine ⟨[], [], rfl, nofun, ?_, fun s rest h => absurd h (by simp)⟩
    cases pending <;> rfl
  | cons l ls ih =>
    cases htoken : l.token? with
    | some kind =>
      obtain ⟨gap, stretches, rfl, hsilent, htokens, hinserted⟩ := ih kind.canEndStatement
      let s : Stretch := ⟨l, kind, htoken, gap, hsilent,
        gapSemicolons stop stretches.isEmpty kind.canEndStatement gap⟩
      refine ⟨[], s :: stretches, rfl, nofun, ?_, ?_⟩
      · rw [insertSemicolons_token htoken, htokens]
        simp [gapSemicolons, s, Stretch.tokens, Stretch.token]
      · intro s' rest hrest
        obtain heq | hrest := List.suffix_cons_iff.mp hrest
        · cases heq
          rfl
        · exact hinserted s' rest hrest
    | none =>
      rw [insertSemicolons_silent htoken]
      by_cases hbreak : (pending && l.breaksLine) = true
      · obtain ⟨lead, stretches, rfl, hsilent, htokens, hinserted⟩ := ih false
        refine ⟨l :: lead, stretches, rfl, List.forall_mem_cons.mpr ⟨htoken, hsilent⟩, ?_,
          hinserted⟩
        rw [if_pos hbreak, htokens, gapSemicolons_false, gapSemicolons, if_pos hbreak]
        rfl
      · obtain ⟨lead, stretches, rfl, hsilent, htokens, hinserted⟩ := ih pending
        refine ⟨l :: lead, stretches, rfl, List.forall_mem_cons.mpr ⟨htoken, hsilent⟩, ?_,
          hinserted⟩
        rw [if_neg hbreak, htokens, gapSemicolons, if_neg hbreak]

end TokenStream

theorem Stretch.Punctuated.of_inserted {s : Stretch} {rest : List Stretch} {stop : Position}
    (htext : ∀ l ∈ s.gap, l.kind.Matches l.text)
    (h : s.inserted = TokenStream.gapSemicolons stop rest.isEmpty s.kind.canEndStatement s.gap) :
    s.Punctuated (rest = []) stop := by
  refine ⟨?_, ?_, fun {t} ht => ?_⟩
  · rw [h, TokenStream.gapSemicolons_ne_nil_iff, TokenKind.canEndStatement_iff, List.isEmpty_iff]
    rfl
  · rw [h]
    exact TokenStream.length_gapSemicolons_le ..
  · rw [h] at ht
    exact TokenStream.breakAt_of_mem_gapSemicolons htext s.silent ht

/-! ### The whole source -/

def Lexeme.written (ls : List Lexeme) : List Token :=
  ls.filterMap fun l => l.token?.map (⟨·, l.position⟩)

theorem Lexeme.mem_written {ls : List Lexeme} {t : Token} :
    t ∈ written ls ↔ ∃ l ∈ ls, l.token? = some t.kind ∧ l.position = t.position := by
  simp only [written, List.mem_filterMap, Option.map_eq_some_iff]
  constructor
  · intro h
    obtain ⟨l, hl, kind, hkind, rfl⟩ := h
    exact ⟨l, hl, hkind, rfl⟩
  · intro h
    obtain ⟨l, hl, hkind, hposition⟩ := h
    exact ⟨l, hl, t.kind, hkind, by rw [hposition]⟩

theorem Lexeme.written_append (ls ms : List Lexeme) :
    written (ls ++ ms) = written ls ++ written ms :=
  List.filterMap_append

theorem Lexeme.written_silent {ls : List Lexeme} (h : ∀ l ∈ ls, l.token? = none) :
    written ls = [] := by
  refine List.filterMap_eq_nil_iff.mpr fun l hl => ?_
  rw [h l hl]
  rfl

theorem Stretch.written_lexemes (s : Stretch) : Lexeme.written s.lexemes = [s.token] := by
  have hgap := Lexeme.written_silent s.silent
  rw [Lexeme.written] at hgap
  rw [Lexeme.written, lexemes, List.filterMap_cons, s.isToken, hgap]
  rfl

theorem Lexeme.written_stretches {lead : List Lexeme} (hlead : ∀ l ∈ lead, l.token? = none)
    (stretches : List Stretch) :
    written (lead ++ stretches.flatMap Stretch.lexemes) = stretches.map Stretch.token := by
  rw [written_append, written_silent hlead, List.nil_append]
  induction stretches with
  | nil => rfl
  | cons s stretches ih => rw [List.flatMap_cons, written_append, s.written_lexemes, ih]; rfl

theorem BreakAt.position {stop p : Position} {gap : List Lexeme} (h : BreakAt stop gap p) :
    p = stop ∨ ∃ l ∈ gap, l.position = p := by
  induction h with
  | here => exact .inr ⟨_, List.mem_cons_self, rfl⟩
  | later _ _ ih => exact ih.imp_right fun ⟨l, hl, hp⟩ => ⟨l, List.mem_cons_of_mem _ hl, hp⟩
  | atEnd => exact .inl rfl

theorem Lexeme.eq_of_position {ls : List Lexeme} {l m : Lexeme}
    (h : ls.Pairwise (·.position.Before ·.position)) (hl : l ∈ ls) (hm : m ∈ ls)
    (heq : l.position = m.position) : l = m := by
  have hnodup : (ls.map (·.position)).Nodup := by
    refine List.pairwise_map.mpr (h.imp fun {a b} hbefore heq => ?_)
    rw [heq] at hbefore
    exact Position.not_before_self _ hbefore
  exact List.inj_on_of_nodup_map hnodup hl hm heq

theorem Stretch.Punctuated.not_mem_written {s : Stretch} {isLast : Prop} {stop : Position}
    {ls : List Lexeme} {t : Token} (h : s.Punctuated isLast stop)
    (hpairs : ls.Pairwise (·.position.Before ·.position)) (hstop : ∀ l ∈ ls, l.position.Before stop)
    (hgap : s.gap ⊆ ls) (ht : t ∈ s.inserted) : t ∉ Lexeme.written ls := by
  intro hwritten
  obtain ⟨l, hl, htoken, hposition⟩ := Lexeme.mem_written.mp hwritten
  obtain heq | ⟨m, hm, heq⟩ := (h.place ht).2.position
  · have hbefore := hstop l hl
    rw [hposition, heq] at hbefore
    exact Position.not_before_self _ hbefore
  · have hsame := Lexeme.eq_of_position hpairs hl (hgap hm) (hposition.trans heq.symm)
    rw [hsame, s.silent m hm] at htoken
    cases htoken

namespace TokenKind

theorem Closed.getLast {pending : Bool} {kinds : List TokenKind} (h : Closed pending kinds) :
    ∀ kind ∈ kinds.getLast?, kind.canEndStatement = false := by
  induction kinds generalizing pending with
  | nil => nofun
  | cons kind kinds ih =>
    cases kinds with
    | nil =>
      intro kind' hkind
      cases hkind
      exact h
    | cons next kinds =>
      rw [List.getLast?_cons_cons]
      exact @ih kind.canEndStatement h

end TokenKind

namespace TokenStream

variable {source : List Char} {stream : TokenStream}

theorem filter_stretches {stretches : List Stretch} {tokens : List Token}
    (hmem : ∀ s ∈ stretches, s.token ∈ tokens)
    (hnot : ∀ s ∈ stretches, ∀ t ∈ s.inserted, t ∉ tokens) :
    (stretches.flatMap Stretch.tokens).filter (· ∈ tokens) = stretches.map Stretch.token := by
  induction stretches with
  | nil => rfl
  | cons s stretches ih =>
    obtain ⟨hs, hmem⟩ := List.forall_mem_cons.mp hmem
    obtain ⟨hinserted, hnot⟩ := List.forall_mem_cons.mp hnot
    have hnone : s.inserted.filter (· ∈ tokens) = [] := by simpa using hinserted
    rw [List.flatMap_cons, List.filter_append, ih hmem hnot, Stretch.tokens, List.filter_cons,
      hnone]
    simp [hs]

theorem not_endsStatement_getLast (h : ofSource source = .ok stream) :
    ∀ t ∈ stream.tokens.getLast?, ¬ t.kind.EndsStatement := by
  intro t ht hends
  have hlast : t.kind ∈ (stream.tokens.map (·.kind)).getLast? := by
    rw [List.getLast?_map, Option.mem_def.mp ht]
    rfl
  rw [← TokenKind.canEndStatement_iff, (closed_of_ofSource h).getLast _ hlast] at hends
  cases hends

/-- One semicolon stands at each place where a statement can end and a line break follows, and none
anywhere else. The last statement ends with the source. -/
theorem semicolons_exact (h : ofSource source = .ok stream) :
    ∃ (ls lead : List Lexeme) (stretches : List Stretch),
      Lexeme.ofSource source = .ok ls ∧ Lexeme.Tiling .start source ls ∧
      ls = lead ++ stretches.flatMap Stretch.lexemes ∧ (∀ l ∈ lead, l.token? = none) ∧
      stream.tokens = stretches.flatMap Stretch.tokens ∧
      stream.tokens.filter (· ∈ Lexeme.written ls) = Lexeme.written ls ∧
      (∀ s rest, s :: rest <:+ stretches → s.Punctuated (rest = []) stream.stop) ∧
      stream.stop = Position.start.after source ∧
      ∀ t ∈ stream.tokens.getLast?, ¬ t.kind.EndsStatement := by
  have hlast := not_endsStatement_getLast h
  obtain ⟨ls, hls, hstream⟩ := bind_eq_ok.mp h
  cases hstream
  have htiling := Lexeme.tiling_of_scan hls
  obtain ⟨hpositions, hpairs⟩ := Lexeme.scan_positions hls
  obtain ⟨lead, stretches, rfl, hlead, htokens, hinserted⟩ :=
    exists_stretches (Position.start.after source) false ls
  rw [gapSemicolons_false, List.nil_append] at htokens
  have hgap {s : Stretch} (hs : s ∈ stretches) :
    s.gap ⊆ lead ++ stretches.flatMap Stretch.lexemes :=
    fun l hl => List.mem_append_right _ (List.mem_flatMap.mpr ⟨s, hs, List.mem_cons_of_mem _ hl⟩)
  have hpunctuated : ∀ s rest, s :: rest <:+ stretches →
      s.Punctuated (rest = []) (Position.start.after source) := by
    intro s rest hrest
    have htext : ∀ l ∈ s.gap, l.kind.Matches l.text := fun l hl =>
      htiling.isText (hgap (hrest.subset List.mem_cons_self) hl)
    exact .of_inserted htext (hinserted s rest hrest)
  refine ⟨_, lead, stretches, hls, htiling, rfl, hlead, htokens, ?_, hpunctuated, rfl, hlast⟩
  have hwritten := Lexeme.written_stretches hlead stretches
  rw [htokens, hwritten]
  refine filter_stretches (fun s hs => List.mem_map_of_mem hs) fun s hs t ht => ?_
  obtain ⟨before, rest, heq⟩ := List.append_of_mem hs
  have hs' := hpunctuated s rest ⟨before, heq.symm⟩
  exact hwritten ▸ hs'.not_mem_written hpairs (fun l hl => (hpositions l hl).2) (hgap hs) ht

/-- The line break in the raw string counts for nothing, and the one in the comment does. -/
theorem semicolons_exact_of_comment :
    ∃ stream, ofSource "x \x60a\nb\x60 /* c\n */ y // d\n\n+ z".toList = .ok stream ∧
      stream.tokens = [⟨.ident "x", ⟨1, 1⟩⟩, ⟨.literal, ⟨1, 3⟩⟩, ⟨.semicolon, ⟨2, 4⟩⟩,
        ⟨.ident "y", ⟨3, 5⟩⟩, ⟨.semicolon, ⟨3, 11⟩⟩, ⟨.operator .add, ⟨5, 1⟩⟩, ⟨.ident "z", ⟨5, 3⟩⟩,
        ⟨.semicolon, ⟨5, 4⟩⟩] ∧
      ∃ (ls lead : List Lexeme) (stretches : List Stretch),
        Lexeme.ofSource "x \x60a\nb\x60 /* c\n */ y // d\n\n+ z".toList = .ok ls ∧
        ls = lead ++ stretches.flatMap Stretch.lexemes ∧
        stream.tokens = stretches.flatMap Stretch.tokens ∧
        stream.tokens.filter (· ∈ Lexeme.written ls) = Lexeme.written ls ∧
        ∀ s rest, s :: rest <:+ stretches → s.Punctuated (rest = []) ⟨5, 4⟩ := by
  let stream : TokenStream :=
    ⟨[⟨.ident "x", ⟨1, 1⟩⟩, ⟨.literal, ⟨1, 3⟩⟩, ⟨.semicolon, ⟨2, 4⟩⟩, ⟨.ident "y", ⟨3, 5⟩⟩,
      ⟨.semicolon, ⟨3, 11⟩⟩, ⟨.operator .add, ⟨5, 1⟩⟩, ⟨.ident "z", ⟨5, 3⟩⟩, ⟨.semicolon, ⟨5, 4⟩⟩],
        ⟨5, 4⟩⟩
  have hstream : ofSource "x \x60a\nb\x60 /* c\n */ y // d\n\n+ z".toList = .ok stream := by
    decide +kernel
  obtain ⟨ls, lead, stretches, hls, -, hlexemes, -, htokens, hwritten, hpunctuated, -, -⟩ :=
    semicolons_exact hstream
  exact ⟨stream, hstream, rfl, ls, lead, stretches, hls, hlexemes, htokens, hwritten, hpunctuated⟩

end TokenStream

end FieldOrder.Source
