import FieldOrder.Proofs.Source.ByteOffsets
import FieldOrder.Proofs.Source.Isolation
import FieldOrder.Proofs.Source.RoundTrip
import FieldOrder.Proofs.Source.Spans

/-! The struct literals of a file stand where they are said to stand, one behind the other: the
position of each is that of a keyword `struct` with an opening brace behind it. -/
namespace FieldOrder.Source

theorem exists_of_mem_forall₂ {α β : Type} {R : α → β → Prop} {as : List α} {bs : List β}
    (h : List.Forall₂ R as bs) {a : α} (ha : a ∈ as) : ∃ b ∈ bs, R a b := by
  induction h with
  | nil => cases ha
  | cons hab _ ih =>
    obtain rfl | ha := List.mem_cons.mp ha
    · exact ⟨_, List.mem_cons_self, hab⟩
    · obtain ⟨b, hb, hab⟩ := ih ha
      exact ⟨b, List.mem_cons_of_mem _ hb, hab⟩

namespace StructLiteral

/-- The literal stands in the file: its fields are what is read behind a keyword `struct` and an
opening brace among the tokens, and its position leads to a place where the source reads this
keyword. It is told as it is if the source has less than 2³² bytes. -/
structure StandsIn (l : StructLiteral) (source : List Char) (tokens : List Token) : Prop where
  read : ∃ span, l.ReadAt span ∧ span.place <:+ tokens
  text : ∃ before rest, source = before ++ rest ∧
    l.position.offset? source = some (byteLength before) ∧ "struct".toList <+: rest
  told : byteLength source < UInt32.size → l.position.told = l.position

theorem ReadAt.before {l m : StructLiteral} {s t : Span} {tokens : List Token} (hl : l.ReadAt s)
    (hm : m.ReadAt t) (hordered : tokens.Pairwise (·.position.Before ·.position))
    (hs : s.place <:+ tokens) (ht : t.place <:+ tokens) (hlt : t.place.length < s.place.length) :
    l.position.Before m.position := by
  obtain ⟨q, body, -, -, -, hplace, -⟩ := hl
  obtain ⟨q', body', -, -, -, hplace', -⟩ := hm
  have hsuffix := List.suffix_of_suffix_length_le ht hs hlt.le
  rw [hplace] at hs hsuffix hlt
  rw [hplace'] at hsuffix hlt
  obtain heq | htail := List.suffix_cons_iff.mp hsuffix
  · exact absurd (congrArg List.length heq) hlt.ne
  · exact (List.pairwise_cons.mp (hordered.sublist hs.sublist)).1 _
      (htail.subset List.mem_cons_self)

end StructLiteral

theorem Noted.pairwise_position {bound : Nat → Nat} {c d : Cursor} {literals : List StructLiteral}
    (h : Noted bound c literals d) (hordered : c.rest.Pairwise (·.position.Before ·.position)) :
    literals.Pairwise (·.position.Before ·.position) := by
  obtain ⟨-, spans, hread, harranged⟩ := h
  have hspans := harranged.ordered
  have hahead := harranged.ahead
  clear harranged
  induction hread with
  | nil => exact .nil
  | @cons l s literals spans hl hread ih =>
    obtain ⟨hlater, hspans⟩ := List.pairwise_cons.mp hspans
    obtain ⟨hs, hahead⟩ := List.forall_mem_cons.mp hahead
    refine List.pairwise_cons.mpr ⟨fun m hm => ?_, ih hspans hahead⟩
    obtain ⟨t, ht, hmt⟩ := exists_of_mem_forall₂ hread hm
    exact hl.before hmt hordered hs (hahead t ht) (hlater t ht)

theorem StructLiteral.ReadAt.standsIn {l : StructLiteral} {span : Span} (hl : l.ReadAt span)
    {source : List Char} {stream : TokenStream} (h : TokenStream.ofSource source = .ok stream)
    (hplace : span.place <:+ stream.tokens) : l.StandsIn source stream.tokens := by
  have hkeyword : ⟨.ident "struct", l.position⟩ ∈ stream.tokens := by
    obtain ⟨q, body, -, -, -, heq, -⟩ := hl
    rw [heq] at hplace
    exact hplace.subset List.mem_cons_self
  refine ⟨⟨span, hl, hplace⟩, ?_, ?_⟩
  · obtain ⟨before, rest, rfl, hposition, hreads⟩ := TokenStream.exists_reads h hkeyword
    have hposition : l.position = Position.start.after before := hposition
    exact ⟨before, rest, rfl, hposition ▸ Position.offset?_after before rest, hreads⟩
  · intro hsize
    obtain htold | hsemicolon := TokenStream.told_of_mem h hsize hkeyword
    · exact congrArg Token.position htold
    · cases hsemicolon

namespace Outline

variable {source : List Char} {stream : TokenStream} {outline : Outline}

theorem standsIn_of_mem (hstream : TokenStream.ofSource source = .ok stream)
    (h : ofTokens stream = .ok outline) {site : Site} (hsite : site ∈ outline.sites) :
    site.literal.StandsIn source stream.tokens := by
  obtain ⟨d, -, spans, hread, harranged⟩ := noted_of_ofTokens h
  obtain ⟨span, hspan, hl⟩ := exists_of_mem_forall₂ hread (List.mem_map_of_mem hsite)
  exact hl.standsIn hstream (harranged.ahead span hspan)

theorem pairwise_sites (hstream : TokenStream.ofSource source = .ok stream)
    (h : ofTokens stream = .ok outline) :
    outline.sites.Pairwise (·.literal.position.Before ·.literal.position) := by
  obtain ⟨d, hnoted⟩ := noted_of_ofTokens h
  have hpositions := hnoted.pairwise_position (TokenStream.pairwise_position hstream)
  rwa [List.pairwise_map] at hpositions

theorem exists_site_of_candidate {target : Target} {files : List SourceFile}
    {candidates : List (Candidate Place)}
    (h : Package.candidates target files = .ok candidates) {candidate : Candidate Place}
    (hcandidate : candidate ∈ candidates) :
    ∃ f ∈ files, ∃ stream outline site, TokenStream.ofSource f.text.toList = .ok stream ∧
      ofTokens stream = .ok outline ∧ site ∈ outline.sites ∧ ∃ env : Env,
        candidate = ⟨env.resolveStruct site.scope site.literal.fields,
          ⟨f.path, site.literal.position⟩, site.literal.name⟩ := by
  obtain ⟨outlines, hread, heq⟩ := bind_eq_ok.mp h
  cases heq
  obtain ⟨file, hfile, hmem⟩ := List.mem_flatMap.mp hcandidate
  obtain ⟨site, hsite, rfl⟩ := List.mem_map.mp hmem
  obtain ⟨f, hf, hfile⟩ := exists_of_mem_forall₂ (mapM_eq_ok.mp hread).flip hfile
  have hread : f.read = .ok file := hfile
  have hpath := SourceFile.path_of_read hread
  unfold SourceFile.read at hread
  split at hread
  · rename_i outline houtline
    cases hread
    obtain ⟨stream, hstream, houtline⟩ := bind_eq_ok.mp houtline
    exact ⟨f, hf, stream, outline, site, hstream, houtline, hsite, _, rfl⟩
  · cases hread

/-- The sites of a file are struct literals that stand there, each behind those before it, so that
none is reported twice. Every candidate has the position of such a literal, and its shape is that of
the fields read there. -/
theorem sites_at_keywords :
    (∀ source stream outline, TokenStream.ofSource source = .ok stream →
      ofTokens stream = .ok outline →
      outline.sites.Pairwise (·.literal.position.Before ·.literal.position) ∧
      ∀ site ∈ outline.sites, site.literal.StandsIn source stream.tokens) ∧
    ∀ target files candidates, Package.candidates target files = .ok candidates →
      ∀ candidate ∈ candidates, ∃ f ∈ files, ∃ stream outline site,
        TokenStream.ofSource f.text.toList = .ok stream ∧ ofTokens stream = .ok outline ∧
        site ∈ outline.sites ∧ site.literal.StandsIn f.text.toList stream.tokens ∧ ∃ env : Env,
          candidate = ⟨env.resolveStruct site.scope site.literal.fields,
            ⟨f.path, site.literal.position⟩, site.literal.name⟩ := by
  refine ⟨fun source stream outline hstream h => ⟨pairwise_sites hstream h, fun site hsite =>
    standsIn_of_mem hstream h hsite⟩, fun target files candidates h candidate hcandidate => ?_⟩
  obtain ⟨f, hf, stream, outline, site, hstream, houtline, hsite, hshape⟩ :=
    exists_site_of_candidate h hcandidate
  exact ⟨f, hf, stream, outline, site, hstream, houtline, hsite,
    standsIn_of_mem hstream houtline hsite, hshape⟩

def methodFile : SourceFile :=
  ⟨"a.go", "func (r R[struct\x7b\x7d]) f()\x7b\nvar é struct\x7ba struct\x7b\x7d\x7d\x7d"⟩

theorem sites_at_keywords_of_method :
    ∃ stream outline candidates, TokenStream.ofSource methodFile.text.toList = .ok stream ∧
      ofTokens stream = .ok outline ∧
      Package.candidates Profile.amd64.target [methodFile] = .ok candidates ∧
      outline.sites.map (·.literal.position) = [⟨2, 8⟩, ⟨2, 17⟩] ∧
      outline.sites.Pairwise (·.literal.position.Before ·.literal.position) ∧
      (∀ site ∈ outline.sites, site.literal.StandsIn methodFile.text.toList stream.tokens) ∧
      candidates.length = 2 ∧
      ∀ candidate ∈ candidates, ∃ f ∈ [methodFile], ∃ stream outline site,
        TokenStream.ofSource f.text.toList = .ok stream ∧ ofTokens stream = .ok outline ∧
        site ∈ outline.sites ∧ site.literal.StandsIn f.text.toList stream.tokens ∧ ∃ env : Env,
          candidate = ⟨env.resolveStruct site.scope site.literal.fields,
            ⟨f.path, site.literal.position⟩, site.literal.name⟩ := by
  have hpositions : ((TokenStream.ofSource methodFile.text.toList).toOption.bind fun stream =>
      (ofTokens stream).toOption.map (·.sites.map (·.literal.position))) =
        some [⟨2, 8⟩, ⟨2, 17⟩] := by decide +kernel
  cases hstream : TokenStream.ofSource methodFile.text.toList with
  | error e =>
    rw [hstream] at hpositions
    cases hpositions
  | ok stream =>
    cases houtline : ofTokens stream with
    | error e => simp [hstream, houtline, Except.toOption] at hpositions
    | ok outline =>
      simp only [hstream, houtline, Except.toOption, Option.bind_some, Option.map_some,
        Option.some.injEq] at hpositions
      have hsource : ofSource methodFile.text = .ok outline := by
        rw [ofSource, hstream]
        exact houtline
      have hcandidates : Package.candidates Profile.amd64.target [methodFile] = .ok _ :=
        Package.candidates_single hsource Profile.amd64.target
      have hlength : outline.sites.length = 2 := by simpa using congrArg List.length hpositions
      obtain ⟨hordered, hstands⟩ := sites_at_keywords.1 _ stream outline hstream houtline
      exact ⟨stream, outline, _, rfl, houtline, hcandidates, hpositions, hordered, hstands,
        by simp [hlength], sites_at_keywords.2 _ _ _ hcandidates⟩

end Outline

end FieldOrder.Source
