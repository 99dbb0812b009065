import FieldOrder.Proofs.Source.Header
import FieldOrder.Proofs.Source.Positions

/-! Where the type parameters of functions are in scope. A function is followed from its header
through its signature and its body. On the way the type parameters stay, and they are gone behind
it. -/
namespace FieldOrder.Source

open Reader

def TokenKind.inSignature : TokenKind → Bool
  | .ident name => decide (name ∉ statementWords)
  | .operator op => op != .leftBrace && op != .rightBrace
  | .semicolon => false
  | .number _ | .literal => true

/-- The parameters and results of a function in which all braces are those of struct literals. -/
inductive Signature : List Token → Prop
  | nil : Signature []
  | token {t : Token} {ts : List Token} (ht : t.kind.inSignature = true) (hts : Signature ts) :
    Signature (t :: ts)
  | literal {p q r : Position} {inside ts : List Token} (hinside : Balanced inside)
    (hts : Signature ts) : Signature (⟨.ident "struct", p⟩ :: ⟨.operator .leftBrace, q⟩ ::
      (inside ++ ⟨.operator .rightBrace, r⟩ :: ts))

namespace Skim

theorem Steps.signature {fuel : Nat} {s s' : Skim} {c c' : Cursor} (h : Steps fuel s c s' c')
    {sig w : List Token} (hc : c.rest = sig ++ w) (hsig : Signature sig) (hne : sig ≠ [])
    (hstart : c.atStatement = false) :
    ∃ sig', c'.rest = sig' ++ w ∧ Signature sig' ∧ c'.atStatement = false ∧ s'.blocks = s.blocks ∧
      s'.parameters = s.parameters := by
  cases hsig with
  | nil => exact absurd rfl hne
  | @token t ts ht hts =>
    rw [List.cons_append] at hc
    cases h with
    | package =>
      obtain ⟨rfl, -⟩ := List.cons.inj hc
      cases ht
    | types =>
      obtain ⟨rfl, -⟩ := List.cons.inj hc
      cases ht
    | literal hstruct =>
      obtain ⟨p, q, rest, hrest⟩ := hstruct
      obtain ⟨rfl, -⟩ := List.cons.inj (hrest.symm.trans hc)
      cases ht
    | function _ hstart' => exact absurd (hstart.symm.trans hstart') (by simp)
    | clears hword =>
      obtain ⟨rfl, -⟩ := List.cons.inj hc
      refine absurd ?_ (of_decide_eq_true ht)
      exact List.mem_cons_of_mem _ (List.mem_cons_of_mem _ (List.mem_cons_of_mem _ hword))
    | opens =>
      obtain ⟨rfl, -⟩ := List.cons.inj hc
      cases ht
    | closes =>
      obtain ⟨rfl, -⟩ := List.cons.inj hc
      cases ht
    | token =>
      obtain ⟨rfl, rfl⟩ := List.cons.inj hc
      refine ⟨ts, rfl, hts, ?_, rfl, rfl⟩
      unfold Cursor.atStatement
      split
      · rename_i heq
        cases heq
      · rename_i heq
        rw [Option.some.inj heq] at ht
        cases ht
      · rfl
  | @literal p q r inside ts hinside hts =>
    have hop : Operator.closing? .leftBrace = some .rightBrace := rfl
    obtain ⟨last, rest⟩ := c
    cases h with
    | literal _ h =>
      obtain rfl : rest = ⟨.ident "struct", p⟩ :: ⟨.operator .leftBrace, q⟩ ::
        (inside ++ ⟨.operator .rightBrace, r⟩ :: (ts ++ w)) := by simpa using hc
      obtain ⟨hlast, _, _, _, last', r', hfields⟩ := passes_fields _ h
      obtain ⟨u, hrest, hu⟩ :=
        hfields.balanced (by simp) rfl hinside (Way.stops_closing (by simp) hop r (ts ++ w))
      refine ⟨ts, hu.eq_nil_of_closing hop hrest, hts, ?_, rfl, rfl⟩
      simp [Cursor.atStatement, hlast]
    | token _ _ hstruct => exact absurd ⟨p, q, _, hc⟩ hstruct
    | package => simp at hc
    | types => simp at hc
    | function => simp at hc
    | clears hword =>
      cases hc
      simp at hword
    | opens => simp at hc
    | closes => simp at hc

theorem length_blocks_declare (s : Skim) (spec : TypeSpec) :
    (s.declare spec).blocks.length = s.blocks.length := by
  obtain ⟨outline, _ | ⟨block, blocks⟩, parameters⟩ := s <;> rfl

theorem length_blocks_foldl_declare (specs : List TypeSpec) (s : Skim) :
    (specs.foldl declare s).blocks.length = s.blocks.length := by
  induction specs generalizing s with
  | nil => rfl
  | cons spec specs ih => rw [List.foldl_cons, ih, length_blocks_declare]

theorem blocks_closeBlock? {s s' : Skim} (h : s.closeBlock? = some s') :
    (∃ block, s.blocks = block :: s'.blocks) ∧
      s'.parameters = if s'.blocks = [] then [] else s.parameters := by
  unfold closeBlock? at h
  split at h
  · cases h
  · rename_i hblocks
    cases h
    simp [hblocks]
  · rename_i block blocks hne hblocks
    cases h
    exact ⟨⟨block, hblocks⟩, by rw [if_neg hne]⟩

theorem Steps.parameters_eq {fuel : Nat} {s s' : Skim} {c c' : Cursor} (h : Steps fuel s c s' c')
    (hs : s.blocks ≠ []) (hs' : s'.blocks ≠ []) : s'.parameters = s.parameters := by
  cases h with
  | package => rfl
  | types => exact parameters_foldl_declare _ s
  | literal => rfl
  | function hnil => exact absurd hnil hs
  | clears _ hnil => exact absurd hnil hs
  | opens => rfl
  | closes h => rw [(blocks_closeBlock? h).2, if_neg hs']
  | token => rfl

theorem Steps.nested {fuel : Nat} {s s' : Skim} {c c' : Cursor} (h : Steps fuel s c s' c')
    {v : List Token} {stack : List Operator} (hv : Way.type.Stops v) (hc : Nested v stack c.rest)
    (hne : c.rest ≠ v) {n : Nat} (hblocks : s.blocks.length = n + stack.count .rightBrace) :
    (∃ stack', Nested v stack' c'.rest ∧ s'.blocks.length = n + stack'.count .rightBrace) ∨
      (∃ q, v = ⟨.semicolon, q⟩ :: c'.rest) ∧ c'.last = some .semicolon ∧ s'.blocks.length = n := by
  have hway : Way.type ≠ .group := by simp
  have hbrace : Operator.closing? .leftBrace = some .rightBrace := rfl
  cases h with
  | package => exact .inl ⟨stack, (hc.skip hway rfl hv).skip hway rfl hv, hblocks⟩
  | @types last p ts a h =>
    have hlength : (a.value.foldl declare s).blocks.length = n + stack.count .rightBrace :=
      (length_blocks_foldl_declare _ s).trans hblocks
    obtain ⟨e, he, hend⟩ := (meets_typeDecls fuel fuel _).yields a h
    have hnested : Nested v stack e.rest := Nested.passes (hc.skip hway rfl hv) hway hv he
    obtain rfl | ⟨q, us, hrest, htarget⟩ := hend
    · exact .inl ⟨stack, hnested, hlength⟩
    · rw [hrest] at hnested
      rw [htarget]
      obtain ⟨rfl, hv⟩ | hnext := hnested.next rfl
      · exact .inr ⟨⟨q, hv⟩, rfl, hlength⟩
      · exact .inl ⟨stack, hnext, hlength⟩
  | literal hstruct h =>
    obtain ⟨p, q, rest, hrest⟩ := hstruct
    have hmeets := (readersMeet fuel fuel c).structType nestingLimit none
    exact .inl ⟨stack, hc.passes hway hv ((hmeets.yields _ h).2.2 _ _ hrest), hblocks⟩
  | function _ _ h =>
    exact .inl ⟨stack, nested_funcParameters hv (hc.skip hway rfl hv) _ h, hblocks⟩
  | clears => exact .inl ⟨stack, hc.skip hway rfl hv, hblocks⟩
  | opens =>
    refine .inl ⟨_, hc.push hbrace hway hv, ?_⟩
    simp [openBlock, hblocks, Nat.add_assoc]
  | closes h =>
    obtain ⟨stack', rfl, hnested⟩ := hc.pop hbrace hne
    refine .inl ⟨stack', hnested, ?_⟩
    obtain ⟨⟨block, heq⟩, -⟩ := blocks_closeBlock? h
    rw [heq, List.length_cons, List.count_cons_self] at hblocks
    omega
  | @token last t ts hopens hcloses =>
    obtain ⟨kind, p⟩ := t
    cases hbracket : kind.isBracket with
    | false =>
      have hnext := (hc.next hbracket).resolve_left fun hend => hne hend.2.symm
      exact .inl ⟨stack, hnext, hblocks⟩
    | true =>
      obtain ⟨op, rfl⟩ : ∃ op, kind = .operator op := by
        unfold TokenKind.isBracket at hbracket
        split at hbracket
        · exact ⟨_, rfl⟩
        · cases hbracket
      -- A bracket that is no brace is no matter to the blocks.
      obtain ⟨opening, closing, hop, rfl | rfl⟩ := closing?_of_isBracket hbracket
      · have hne' : closing ≠ .rightBrace := by
          rintro rfl
          exact hopens (congrArg _ (closing?_inj hop hbrace))
        exact .inl ⟨_, hc.push hop hway hv, by rw [List.count_cons_of_ne hne', hblocks]⟩
      · obtain ⟨stack', rfl, hnested⟩ := hc.pop hop hne
        rw [List.count_cons_of_ne (fun heq => hcloses (congrArg _ heq))] at hblocks
        exact .inl ⟨stack', hnested, hblocks⟩

def InSignature (w : List Token) (names : List String) (s : Skim) (c : Cursor) : Prop :=
  ∃ sig, c.rest = sig ++ w ∧ sig ≠ [] ∧ Signature sig ∧ c.atStatement = false ∧ s.blocks = [] ∧
    s.parameters = names

def BehindSignature (w : List Token) (names : List String) (s : Skim) (c : Cursor) : Prop :=
  c.rest = w ∧ s.blocks = [] ∧ s.parameters = names

theorem inSignature_or_behind {s : Skim} {c : Cursor} {sig w : List Token} (hc : c.rest = sig ++ w)
    (hsig : Signature sig) (hstart : c.atStatement = false) (hopen : s.blocks = []) :
    InSignature w s.parameters s c ∨ BehindSignature w s.parameters s c := by
  by_cases hnil : sig = []
  · exact .inr ⟨by rw [hc, hnil, List.nil_append], hopen, rfl⟩
  · exact .inl ⟨sig, hc, hnil, hsig, hstart, hopen, rfl⟩

theorem Steps.inSignature {fuel : Nat} {s s' : Skim} {c c' : Cursor} {w : List Token}
    {names : List String} (h : Steps fuel s c s' c') (hs : InSignature w names s c) :
    InSignature w names s' c' ∨ BehindSignature w names s' c' := by
  obtain ⟨sig, hc, hne, hsig, hstart, hopen, rfl⟩ := hs
  obtain ⟨sig', hc', hsig', hstart', hblocks, hparameters⟩ := h.signature hc hsig hne hstart
  rw [← hparameters]
  exact inSignature_or_behind hc' hsig' hstart' (hblocks.trans hopen)

theorem Runs.through_signature {s final : Skim} {c : Cursor} {ms : List Move} {sig w : List Token}
    (h : Runs s c ms final) (hc : c.rest = sig ++ w) (hsig : Signature sig)
    (hstart : c.atStatement = false) (hopen : s.blocks = []) :
    ∃ between rest s' c', ms = between ++ rest ∧ (∀ m ∈ between, m.skim.parameters = s.parameters) ∧
      BehindSignature w s.parameters s' c' ∧ Runs s' c' rest final := by
  have hend {t : Skim} {last : Option TokenKind} : ¬ InSignature w s.parameters t ⟨last, []⟩ := by
    rintro ⟨sig, hd, hne, -⟩
    exact hne (List.append_eq_nil_iff.mp hd.symm).1
  obtain ⟨between, rest, s', c', hms, hbetween, hs', hrun⟩ :=
    h.reaches (I := InSignature w s.parameters) Steps.inSignature hend
      (inSignature_or_behind hc hsig hstart hopen)
  refine ⟨between, rest, s', c', hms, fun m hm => ?_, hs', hrun⟩
  obtain ⟨sig, -, -, -, -, -, hparameters⟩ := hbetween m hm
  exact hparameters

def InBody (v : List Token) (names : List String) (s : Skim) (c : Cursor) : Prop :=
  ∃ stack, Nested v stack c.rest ∧ c.rest ≠ v ∧ s.blocks.length = 1 + stack.count .rightBrace ∧
    s.parameters = names

def EndOfBody (v : List Token) (s : Skim) (c : Cursor) : Prop := c.rest = v ∧ s.blocks.length = 1

theorem inBody_or_end {v : List Token} {stack : List Operator} {s : Skim} {c : Cursor}
    (hc : Nested v stack c.rest) (hopen : s.blocks.length = 1 + stack.count .rightBrace) :
    InBody v s.parameters s c ∨ EndOfBody v s c := by
  by_cases hend : c.rest = v
  · rw [hc.eq_nil hend] at hopen
    exact .inr ⟨hend, hopen⟩
  · exact .inl ⟨stack, hc, hend, hopen, rfl⟩

theorem Steps.inBody {fuel : Nat} {s s' : Skim} {c c' : Cursor} {q : Position} {after : List Token}
    {names : List String} (h : Steps fuel s c s' c')
    (hs : InBody (⟨.operator .rightBrace, q⟩ :: after) names s c) :
    InBody (⟨.operator .rightBrace, q⟩ :: after) names s' c' ∨
      EndOfBody (⟨.operator .rightBrace, q⟩ :: after) s' c' := by
  have hop : Operator.closing? .leftBrace = some .rightBrace := rfl
  have hnonempty {s : Skim} {n : Nat} (h : s.blocks.length = 1 + n) : s.blocks ≠ [] := by
    rw [← List.length_pos_iff]
    omega
  obtain ⟨stack, hc, hne, hopen, rfl⟩ := hs
  obtain ⟨stack', hc', hopen'⟩ | ⟨⟨r, heq⟩, -⟩ :=
    h.nested (Way.stops_closing (by simp) hop q after) hc hne hopen
  · rw [← h.parameters_eq (hnonempty hopen) (hnonempty hopen')]
    exact inBody_or_end hc' hopen'
  · cases heq

theorem Runs.through_body {s final : Skim} {c : Cursor} {ms : List Move} {body after : List Token}
    {q : Position} (h : Runs s c ms final) (hbody : Balanced body)
    (hc : c.rest = body ++ ⟨.operator .rightBrace, q⟩ :: after) (hopen : s.blocks.length = 1) :
    ∃ between rest s' c', ms = between ++ rest ∧ (∀ m ∈ between, m.skim.parameters = s.parameters) ∧
      EndOfBody (⟨.operator .rightBrace, q⟩ :: after) s' c' ∧ Runs s' c' rest final := by
  have hend {t : Skim} {last : Option TokenKind} :
      ¬ InBody (⟨.operator .rightBrace, q⟩ :: after) s.parameters t ⟨last, []⟩ := by
    rintro ⟨stack, hd, hne, -⟩
    exact hne (List.suffix_nil.mp hd.suffix).symm
  have hnested : Nested (⟨.operator .rightBrace, q⟩ :: after) [] c.rest := hc ▸ .base hbody
  obtain ⟨between, rest, s', c', hms, hbetween, hs', hrun⟩ :=
    h.reaches (I := InBody _ s.parameters) Steps.inBody hend
      (inBody_or_end hnested (by simpa using hopen))
  refine ⟨between, rest, s', c', hms, fun m hm => ?_, hs', hrun⟩
  obtain ⟨stack, -, -, -, hparameters⟩ := hbetween m hm
  exact hparameters

def AmongStatements (v : List Token) (s : Skim) (c : Cursor) : Prop :=
  ∃ stack, Nested v stack c.rest ∧ s.blocks.length = 0 + stack.count .rightBrace

def BehindStatements (w : List Token) (s : Skim) (c : Cursor) : Prop :=
  c.rest = w ∧ c.last = some .semicolon ∧ s.blocks = []

theorem Steps.amongStatements {fuel : Nat} {s s' : Skim} {c c' : Cursor} {q : Position}
    {w : List Token} (h : Steps fuel s c s' c') (hs : AmongStatements (⟨.semicolon, q⟩ :: w) s c) :
    AmongStatements (⟨.semicolon, q⟩ :: w) s' c' ∨ BehindStatements w s' c' := by
  obtain ⟨stack, hc, hopen⟩ := hs
  by_cases hend : c.rest = ⟨.semicolon, q⟩ :: w
  · rw [hc.eq_nil hend] at hopen
    obtain ⟨last, rest⟩ := c
    cases hend
    obtain ⟨rfl, rfl⟩ := h.semicolon
    exact .inr ⟨rfl, rfl, List.length_eq_zero_iff.mp hopen⟩
  · obtain hnested | ⟨⟨r, heq⟩, hlast, hopen'⟩ := h.nested (Way.stops_semicolon q w) hc hend hopen
    · exact .inl hnested
    · cases heq
      exact .inr ⟨rfl, hlast, List.length_eq_zero_iff.mp hopen'⟩

theorem Runs.through_statements {s final : Skim} {c : Cursor} {ms : List Move}
    {before w : List Token} {q : Position} (h : Runs s c ms final) (hbefore : Balanced before)
    (hc : c.rest = before ++ ⟨.semicolon, q⟩ :: w) (hopen : s.blocks = []) :
    ∃ between rest s' c', ms = between ++ rest ∧ BehindStatements w s' c' ∧
      Runs s' c' rest final := by
  have hend {t : Skim} {last : Option TokenKind} :
      ¬ AmongStatements (⟨.semicolon, q⟩ :: w) t ⟨last, []⟩ := by
    rintro ⟨stack, hd, -⟩
    exact absurd (List.suffix_nil.mp hd.suffix) (by simp)
  have hstart : AmongStatements (⟨.semicolon, q⟩ :: w) s c :=
    ⟨[], hc ▸ .base hbefore, by simp [hopen]⟩
  obtain ⟨between, rest, s', c', hms, -, hs', hrun⟩ :=
    h.reaches (I := AmongStatements _) (P := BehindStatements w) Steps.amongStatements hend
      (.inl hstart)
  exact ⟨between, rest, s', c', hms, hs', hrun⟩

end Skim

/-- The declaration of a function or method with the type parameters `names`. Behind its header
stand its parameters and results, and a body, which is the first group of braces that is not a
struct's. -/
inductive FunctionAt : List Token → (names : List String) → (inside rest : List Token) → Prop
  | mk {p q r : Position} {header signature body after : List Token} {names : List String}
    (hheader : Header header names) (hsignature : Signature signature)
    (hstart : signature.head?.map (·.kind) = some (.operator .leftParen)) (hbody : Balanced body) :
    FunctionAt (⟨.ident "func", p⟩ :: (header ++ (signature ++ ⟨.operator .leftBrace, q⟩ :: (body ++
        ⟨.operator .rightBrace, r⟩ :: after))))
      names (signature ++ ⟨.operator .leftBrace, q⟩ :: body) (⟨.operator .rightBrace, r⟩ :: after)

namespace Move

def At (kind : TokenKind) (m : Move) : Prop := m.cursor.rest.head?.map (·.kind) = some kind

def StartsFunction (m : Move) : Prop :=
  m.skim.blocks = [] ∧ m.cursor.atStatement = true ∧ m.At (.ident "func")

def EndsFunction (m : Move) : Prop :=
  (m.skim.blocks.length = 1 ∧ m.At (.operator .rightBrace)) ∨ m.StartsFunction ∨
    (m.skim.blocks = [] ∧ ∃ word ∈ ["var", "const", "import"], m.At (.ident word))

def Finds (site : Site) (m : Move) : Prop :=
  ∃ sites, m.result.outline.sites = m.skim.outline.sites ++ sites ∧ site ∈ sites

def DeclaresParameter (site : Site) (name : String) (m : Move) : Prop :=
  ∃ fuel p ts a, ∃ spec ∈ a.value, m.cursor.rest = ⟨.ident "type", p⟩ :: ts ∧
    typeDecls fuel ⟨some (.ident "type"), ts⟩ = .ok a ∧ site.literal ∈ spec.literals ∧
    name ∈ spec.parameters

end Move

namespace Skim

/-- Behind the header of a function reading goes on in front of its signature, or of its name, which
might as well belong to it. -/
theorem Steps.header {fuel : Nat} {s s' : Skim} {c c' : Cursor} (h : Steps fuel s c s' c')
    {p : Position} {header signature w : List Token} {names : List String}
    (hc : c.rest = ⟨.ident "func", p⟩ :: (header ++ (signature ++ w))) (hopen : s.blocks = [])
    (hstatement : c.atStatement = true) (hheader : Header header names)
    (hsignature : Signature signature)
    (hstart : signature.head?.map (·.kind) = some (.operator .leftParen)) :
    s'.blocks = [] ∧ s'.parameters = names ∧ c'.atStatement = false ∧
      ∃ sig, Signature sig ∧ c'.rest = sig ++ w ∧ signature.length ≤ sig.length := by
  obtain ⟨a, ha, rfl, rfl⟩ := h.func hc hopen hstatement
  have hrest : (signature ++ w).head?.map (·.kind) ≠ some (.operator .leftBracket) := by
    obtain ⟨q, ts, rfl⟩ := head_eq_some hstart
    simp
  have hnamed {name : String} (q : Position) (hname : name ∉ statementWords) :
      Signature (⟨.ident name, q⟩ :: signature) :=
    .token (decide_eq_true hname) hsignature
  obtain ⟨hvalue, hcursor⟩ := yields_funcParameters hheader hrest _ a ha
  refine ⟨hopen, hvalue, ?_⟩
  obtain ⟨name, q, hname, hcursor | hcursor⟩ | hcursor := hcursor
  · rw [hcursor]
    exact ⟨rfl, _, hnamed q hname, rfl, by simp⟩
  · rw [hcursor]
    exact ⟨rfl, _, hnamed q hname, rfl, by simp⟩
  · rw [hcursor]
    exact ⟨rfl, _, hsignature, rfl, Nat.le_refl _⟩

theorem Runs.through_function {s final : Skim} {c : Cursor} {ms : List Move}
    {signature body after : List Token} {q r : Position} (h : Runs s c ms final)
    (hc : c.rest = signature ++
      ⟨.operator .leftBrace, q⟩ :: (body ++ ⟨.operator .rightBrace, r⟩ :: after))
    (hsignature : Signature signature) (hbody : Balanced body) (hstart : c.atStatement = false)
    (hopen : s.blocks = []) :
    ∃ between last later, ms = between ++ last :: later ∧
      (∀ m ∈ between, m.skim.parameters = s.parameters) ∧
      last.cursor.rest = ⟨.operator .rightBrace, r⟩ :: after ∧ last.skim.blocks.length = 1 := by
  obtain ⟨first, rest, s₁, c₁, rfl, hfirst, ⟨hc₁, hopen₁, hnames₁⟩, hrun₁⟩ :=
    h.through_signature hc hsignature hstart hopen
  obtain ⟨fuel, s₂, c₂, rest, rfl, hbrace, hrun₂⟩ := hrun₁.exists_cons (by simp [hc₁])
  obtain ⟨rfl, hc₂⟩ := hbrace.leftBrace hc₁
  obtain ⟨second, rest, s₃, c₃, rfl, hsecond, ⟨hc₃, hopen₃⟩, hrun₃⟩ :=
    hrun₂.through_body hbody hc₂ (by simp [openBlock, hopen₁])
  obtain ⟨fuel, s₄, c₄, later, rfl, -⟩ := hrun₃.exists_cons (by simp [hc₃])
  refine ⟨first ++ ⟨s₁, c₁, s₁.openBlock, c₂⟩ :: second, ⟨s₃, c₃, s₄, c₄⟩, later, by simp,
    fun m hm => ?_, hc₃, hopen₃⟩
  obtain hm | hm := List.mem_append.mp hm
  · exact hfirst m hm
  obtain rfl | hm := List.mem_cons.mp hm
  · exact hnames₁
  · exact (hsecond m hm).trans hnames₁

theorem Runs.function {s final : Skim} {c : Cursor} {f : Move} {ms : List Move}
    {names : List String}
    {inside rest : List Token} (h : Runs s c (f :: ms) final) (hf : f.StartsFunction)
    (hfunction : FunctionAt f.cursor.rest names inside rest) :
    f.result.parameters = names ∧ (inside ++ rest).length ≤ f.target.rest.length ∧
      ∃ between last later, ms = between ++ last :: later ∧
        (∀ m ∈ between, m.skim.parameters = names) ∧ last.cursor.rest = rest ∧
          last.EndsFunction := by
  obtain ⟨hopen, hstatement, -⟩ := hf
  cases h with
  | @step fuel _ s' _ _ c' _ hstep hrun =>
    generalize hc : (Move.cursor ⟨s, c, s', c'⟩).rest = ts at hfunction
    cases hfunction with
    | @mk p q r header signature body after _ hheader hsignature hstart hbody =>
      obtain ⟨hopen', rfl, hstatement', sig, hsig, hc', hle⟩ :=
        hstep.header hc hopen hstatement hheader hsignature hstart
      obtain ⟨between, last, later, rfl, hbetween, hrest, hlast⟩ :=
        hrun.through_function hc' hsig hbody hstatement' hopen'
      have hend : last.EndsFunction := .inl ⟨hlast, by simp [Move.At, hrest]⟩
      refine ⟨rfl, ?_, between, last, later, rfl, hbetween, hrest, hend⟩
      simp only [hc', List.length_append, List.length_cons]
      omega

/-- A site is found where its literal stands. Its type parameters are those of the function, behind
those of the type declaration that it is found in. -/
theorem Steps.finds {fuel : Nat} {s s' : Skim} {c c' : Cursor} (h : Steps fuel s c s' c')
    {site : Site} (hsite : Move.Finds site ⟨s, c, s', c'⟩) :
    (∃ place, LiteralAt site.literal.position place ∧ place <:+ c.rest ∧
      c'.rest.length < place.length) ∧
    ∃ own, site.scope.parameters = own ++ s.parameters ∧
      ∀ name ∈ own, Move.DeclaresParameter site name ⟨s, c, s', c'⟩ := by
  obtain ⟨sites, hsites, hmem⟩ := hsite
  have hnone (hsame : s'.outline.sites = s.outline.sites) : False := by
    obtain rfl : [] = sites := by simpa [hsame] using hsites
    cases hmem
  cases h with
  | package => exact (hnone rfl).elim
  | @types last p ts a h =>
    obtain ⟨sites', hsites', hliterals, hscopes⟩ := sites_foldl_declare a.value s
    obtain rfl : sites' = sites := List.append_cancel_left (hsites'.symm.trans hsites)
    obtain ⟨spec, hspec, hliteral, hparameters⟩ := hscopes site hmem
    have hway := Passes.literalAt ((meets_typeDecls fuel fuel _).yields a h).inList
      (List.mem_flatMap.mpr ⟨spec, hspec, hliteral⟩)
    obtain ⟨place, hplace, hsuffix, hlength⟩ := hway
    exact ⟨⟨place, hplace, hsuffix.trans (List.suffix_cons _ _), hlength⟩, spec.parameters,
      hparameters, fun name hname => ⟨fuel, p, ts, a, spec, hspec, rfl, h, hliteral, hname⟩⟩
  | @literal c a hstruct h =>
    obtain ⟨p, q, rest, hrest⟩ := hstruct
    obtain rfl := List.append_cancel_left (hsites : s.outline.sites ++ _ = _)
    obtain ⟨literal, hliteral, rfl⟩ := List.mem_map.mp hmem
    have hmeets := (readersMeet fuel fuel c).structType nestingLimit none
    exact ⟨((hmeets.yields _ h).2.2 _ _ hrest).literalAt hliteral, [], rfl, by simp⟩
  | function => exact (hnone rfl).elim
  | clears => exact (hnone rfl).elim
  | opens => exact (hnone rfl).elim
  | closes h => exact (hnone (sites_closeBlock? h)).elim
  | token => exact (hnone rfl).elim

theorem Runs.exists_finds {s final : Skim} {c : Cursor} {ms : List Move} (h : Runs s c ms final)
    {site : Site} (hsite : site ∈ final.outline.sites) :
    site ∈ s.outline.sites ∨ ∃ before m after, ms = before ++ m :: after ∧ m.Finds site := by
  induction h with
  | done => exact .inl hsite
  | @step fuel s s' final c c' ms hstep hrun ih =>
    obtain hmem | ⟨before, m, after, rfl, hm⟩ := ih hsite
    · obtain ⟨sites, hsites⟩ := hstep.sites_kept
      obtain hmem | hmem := List.mem_append.mp (hsites ▸ hmem)
      · exact .inl hmem
      · exact .inr ⟨[], _, ms, rfl, sites, hsites.symm, hmem⟩
    · exact .inr ⟨_ :: before, m, after, rfl, hm⟩

theorem Steps.parameters_of_not_endsFunction {fuel : Nat} {s s' : Skim} {c c' : Cursor}
    (h : Steps fuel s c s' c') (hend : ¬ Move.EndsFunction ⟨s, c, s', c'⟩) :
    s'.parameters = s.parameters := by
  cases h with
  | package => rfl
  | types => exact parameters_foldl_declare _ s
  | literal => rfl
  | function hopen hstatement => exact absurd (.inr (.inl ⟨hopen, hstatement, rfl⟩)) hend
  | clears hword hopen => exact absurd (.inr (.inr ⟨hopen, _, hword, rfl⟩)) hend
  | opens => rfl
  | closes h =>
    obtain ⟨⟨block, hblocks⟩, hparameters⟩ := blocks_closeBlock? h
    rw [hparameters, if_neg]
    intro hnil
    exact hend (.inl ⟨by simp [hblocks, hnil], rfl⟩)
  | token => rfl

theorem Steps.parameters_of_endsFunction {fuel : Nat} {s s' : Skim} {c c' : Cursor}
    (h : Steps fuel s c s' c') (hend : Move.EndsFunction ⟨s, c, s', c'⟩) :
    Move.StartsFunction ⟨s, c, s', c'⟩ ∨ s'.parameters = [] := by
  obtain ⟨hone, hat⟩ | hstart | ⟨hopen, word, hword, hat⟩ := hend
  · right
    obtain ⟨p, ts, hc⟩ := head_eq_some hat
    cases h with
    | closes h =>
      obtain ⟨⟨block, hblocks⟩, hparameters⟩ := blocks_closeBlock? h
      rw [hparameters, if_pos]
      simpa [hblocks] using hone
    | literal hstruct =>
      obtain ⟨_, _, _, hrest⟩ := hstruct
      cases hrest.symm.trans hc
    | token _ hcloses =>
      cases hc
      exact absurd rfl hcloses
    | package => cases hc
    | types => cases hc
    | function => cases hc
    | clears => cases hc
    | opens => cases hc
  · exact .inl hstart
  · right
    obtain ⟨p, ts, hc⟩ := head_eq_some hat
    cases h with
    | clears => rfl
    | literal hstruct =>
      obtain ⟨_, _, _, hrest⟩ := hstruct
      cases hrest.symm.trans hc
      simp at hword
    | token _ _ _ _ hclears =>
      cases hc
      exact absurd hopen (hclears word hword rfl)
    | package =>
      cases hc
      simp at hword
    | types =>
      cases hc
      simp at hword
    | function =>
      cases hc
      simp at hword
    | opens => cases hc
    | closes => cases hc

def FunctionParameter (before : List Move) (name : String) : Prop :=
  ∃ earlier f between, before = earlier ++ f :: between ∧ f.StartsFunction ∧
    name ∈ f.result.parameters ∧ ∀ x ∈ between, ¬ x.EndsFunction

theorem functionParameter_cons {x : Move} {before : List Move} {name : String} :
    FunctionParameter (x :: before) name ↔ FunctionParameter before name ∨
      (x.StartsFunction ∧ name ∈ x.result.parameters ∧ ∀ y ∈ before, ¬ y.EndsFunction) := by
  constructor
  · rintro ⟨_ | ⟨y, earlier⟩, f, between, heq, hf⟩
    · cases heq
      exact .inr hf
    · cases heq
      exact .inl ⟨earlier, f, between, rfl, hf⟩
  · rintro (⟨earlier, f, between, rfl, hf⟩ | hx)
    · exact ⟨x :: earlier, f, between, rfl, hf⟩
    · exact ⟨[], x, before, rfl, hx⟩

theorem Runs.mem_parameters {s final : Skim} {c : Cursor} {before after : List Move} {m : Move}
    (h : Runs s c (before ++ m :: after) final) {name : String} :
    name ∈ m.skim.parameters ↔
      (name ∈ s.parameters ∧ ∀ x ∈ before, ¬ x.EndsFunction) ∨ FunctionParameter before name := by
  induction before generalizing s c with
  | nil =>
    cases h with
    | step => simp [FunctionParameter]
  | cons x before ih =>
    cases h with
    | @step fuel _ s' _ _ c' _ hstep hrun =>
      rw [ih hrun, functionParameter_cons, List.forall_mem_cons]
      by_cases hend : Move.EndsFunction ⟨s, c, s', c'⟩
      · have hstart : name ∈ s'.parameters → Move.StartsFunction ⟨s, c, s', c'⟩ := fun hname =>
          (hstep.parameters_of_endsFunction hend).resolve_right fun hnil => by simp [hnil] at hname
        tauto
      · have hstart : ¬ Move.StartsFunction ⟨s, c, s', c'⟩ := fun hstart =>
          hend (.inr (.inl hstart))
        rw [hstep.parameters_of_not_endsFunction hend]
        tauto

end Skim

theorem Skim.Runs.exists_startsFunction {final : Skim} {ms : List Move} {before ts : List Token}
    {p : Position} (h : Runs .start (.start (before ++ ⟨.ident "func", p⟩ :: ts)) ms final)
    (hbefore : before = [] ∨ ∃ statements q, Balanced statements ∧
      before = statements ++ [⟨.semicolon, q⟩]) :
    ∃ m ∈ ms, m.StartsFunction ∧ m.cursor.rest = ⟨.ident "func", p⟩ :: ts := by
  obtain rfl | ⟨statements, q, hstatements, rfl⟩ := hbefore
  · obtain ⟨fuel, s', c', ms', rfl, -⟩ := h.exists_cons (by simp [Cursor.start])
    exact ⟨_, List.mem_cons_self, ⟨rfl, rfl, rfl⟩, rfl⟩
  · rw [List.append_assoc] at h
    obtain ⟨between, rest, s, c, rfl, ⟨hc, hlast, hopen⟩, hrun⟩ :=
      h.through_statements hstatements rfl rfl
    obtain ⟨fuel, s', c', ms', rfl, -⟩ := hrun.exists_cons (by simp [hc])
    refine ⟨⟨s, c, s', c'⟩, by simp, ⟨hopen, ?_, by simp [Move.At, hc]⟩, hc⟩
    simp [Cursor.atStatement, hlast]

theorem FunctionAt.suffix {ts inside rest : List Token} {names : List String}
    (h : FunctionAt ts names inside rest) : inside ++ rest <:+ ts := by
  obtain @⟨p, q, r, header, signature, body, after, names, -, -, -, -⟩ := h
  exact ⟨⟨.ident "func", p⟩ :: header, by simp⟩

theorem Skim.Runs.parameters_subset {final : Skim} {tokens : List Token} {earlier later : List Move}
    {f : Move} (h : Runs .start (.start tokens) (earlier ++ f :: later) final)
    (hpositions : tokens.Pairwise (·.position.Before ·.position)) (hf : f.StartsFunction)
    {names : List String} {inside rest : List Token}
    (hfunction : FunctionAt f.cursor.rest names inside rest) {site : Site}
    (hsite : site ∈ final.outline.sites)
    (hinside : ∃ t ∈ inside, t.position = site.literal.position) :
    names ⊆ site.scope.parameters := by
  obtain hnone | ⟨before, m, after, hmoves, hfinds⟩ := h.exists_finds hsite
  · cases hnone
  have hm : m ∈ earlier ++ f :: later := by simp [hmoves]
  obtain ⟨⟨fuel, hstep⟩, hcursor⟩ := h.of_mem hm
  obtain ⟨⟨place, hplace, hsuffix, htaken⟩, own, hown, -⟩ := hstep.finds hfinds
  -- The place of the literal is inside the function.
  obtain ⟨t, ht, hposition⟩ := hinside
  obtain ⟨x, y, rfl⟩ := List.append_of_mem ht
  obtain ⟨⟨fuel', hstep'⟩, hf'⟩ := h.of_mem (m := f) (by simp)
  obtain rfl : place = t :: (y ++ rest) := by
    obtain ⟨q, after, rfl⟩ := hplace
    refine eq_of_position hpositions (hsuffix.trans hcursor) ?_ hposition.symm
    exact (List.IsSuffix.trans ⟨x, by simp⟩ hfunction.suffix).trans hf'
  obtain ⟨s, c, hrun⟩ := h.drop
  obtain ⟨-, hle, between, last, later, rfl, hbetween, hlast, -⟩ := hrun.function hf hfunction
  obtain ⟨-, hpairs, hearlier⟩ := List.pairwise_append.mp h.pairwise
  have hend := (List.pairwise_append.mp (List.pairwise_cons.mp hpairs).2).2.1
  simp only [List.length_append, List.length_cons] at hle htaken
  obtain hm | hm := List.mem_append.mp hm
  · have hbehind := (hearlier m hm f List.mem_cons_self).length_le
    have htarget := hstep'.behind.suffix.length_le
    omega
  obtain rfl | hm := List.mem_cons.mp hm
  · omega
  obtain hm | hm := List.mem_append.mp hm
  · rw [hown, hbetween m hm]
    exact List.subset_append_right _ _
  have hbehind : m.cursor.rest <:+ rest := by
    obtain rfl | hm := List.mem_cons.mp hm
    · exact hlast ▸ List.suffix_rfl
    · obtain ⟨⟨fuel'', hstep''⟩, -⟩ := h.of_mem (m := last) (by simp)
      exact hlast ▸ ((List.pairwise_cons.mp hend).1 m hm).trans hstep''.behind.suffix
  have hlength := (hsuffix.trans hbehind).length_le
  simp only [List.length_append, List.length_cons] at hlength
  omega

namespace Outline

/-- Where type parameters are in scope. A function that stands behind properly nested statements is
met outside all blocks. All its type parameters are those of every site up to the closing brace of
its body, which is the first group of braces behind its header that is not a struct's: the braces of
an interface type in its signature are taken for it. The other type parameters of a site are those
of the type declaration that it is found in, and those of a function that has not ended. -/
theorem parameters_of_sites {source : String} {stream : TokenStream} {outline : Outline}
    (hlex : TokenStream.ofSource source.toList = .ok stream)
    (hparse : ofTokens stream = .ok outline) :
    (∀ before p ts, stream.tokens = before ++ ⟨.ident "func", p⟩ :: ts →
      (before = [] ∨ ∃ statements q, Balanced statements ∧ before = statements ++
        [⟨.semicolon, q⟩]) →
      ∃ m ∈ moves stream, m.StartsFunction ∧ m.cursor.rest = ⟨.ident "func", p⟩ :: ts) ∧
    (∀ earlier f later names inside rest, moves stream = earlier ++ f :: later → f.StartsFunction →
      FunctionAt f.cursor.rest names inside rest →
      f.result.parameters = names ∧ (∃ m ∈ later, m.cursor.rest = rest ∧ m.EndsFunction) ∧
      ∀ site ∈ outline.sites, (∃ t ∈ inside, t.position = site.literal.position) →
        names ⊆ site.scope.parameters) ∧
    ∀ site ∈ outline.sites, ∃ before m after own, moves stream = before ++ m :: after ∧
      m.Finds site ∧ site.scope.parameters = own ++ m.skim.parameters ∧
      (∀ name ∈ own, m.DeclaresParameter site name) ∧
      ∀ name, name ∈ m.skim.parameters ↔ Skim.FunctionParameter before name := by
  obtain ⟨final, hrun, rfl⟩ := runs_of_ofTokens hparse
  refine ⟨?_, ?_, ?_⟩
  · intro before p ts htokens hbefore
    rw [htokens] at hrun
    exact hrun.exists_startsFunction hbefore
  · intro earlier f later names inside rest hmoves hf hfunction
    rw [hmoves] at hrun
    obtain ⟨s, c, hrest⟩ := hrun.drop
    obtain ⟨hnames, -, between, last, after, rfl, -, hlast, hend⟩ := hrest.function hf hfunction
    refine ⟨hnames, ⟨last, by simp, hlast, hend⟩, fun site hsite hinside => ?_⟩
    exact hrun.parameters_subset (TokenStream.pairwise_position hlex) hf hfunction hsite hinside
  · intro site hsite
    obtain hnone | ⟨before, m, after, hmoves, hfinds⟩ := hrun.exists_finds hsite
    · cases hnone
    rw [hmoves] at hrun
    obtain ⟨⟨fuel, hstep⟩, -⟩ := hrun.of_mem (m := m) (by simp)
    obtain ⟨-, own, hown, hdeclares⟩ := hstep.finds hfinds
    refine ⟨before, m, after, own, hmoves, hfinds, hown, hdeclares, fun name => ?_⟩
    rw [hrun.mem_parameters]
    simp [Skim.start]

def methodSource : String :=
  "package p\nfunc (r R[K]) f[T any](x struct\x7b a T \x7d) " ++
    "\x7b _ = struct\x7b k K \x7d\x7b\x7d \x7d\ntype Z struct\x7b z K \x7d\n"

def methodStream : TokenStream :=
  ⟨[⟨.ident "package", ⟨1, 1⟩⟩, ⟨.ident "p", ⟨1, 9⟩⟩, ⟨.semicolon, ⟨1, 10⟩⟩,
    ⟨.ident "func", ⟨2, 1⟩⟩, ⟨.operator .leftParen, ⟨2, 6⟩⟩, ⟨.ident "r", ⟨2, 7⟩⟩,
    ⟨.ident "R", ⟨2, 9⟩⟩, ⟨.operator .leftBracket, ⟨2, 10⟩⟩, ⟨.ident "K", ⟨2, 11⟩⟩,
    ⟨.operator .rightBracket, ⟨2, 12⟩⟩, ⟨.operator .rightParen, ⟨2, 13⟩⟩, ⟨.ident "f", ⟨2, 15⟩⟩,
    ⟨.operator .leftBracket, ⟨2, 16⟩⟩, ⟨.ident "T", ⟨2, 17⟩⟩, ⟨.ident "any", ⟨2, 19⟩⟩,
    ⟨.operator .rightBracket, ⟨2, 22⟩⟩, ⟨.operator .leftParen, ⟨2, 23⟩⟩, ⟨.ident "x", ⟨2, 24⟩⟩,
    ⟨.ident "struct", ⟨2, 26⟩⟩, ⟨.operator .leftBrace, ⟨2, 32⟩⟩, ⟨.ident "a", ⟨2, 34⟩⟩,
    ⟨.ident "T", ⟨2, 36⟩⟩, ⟨.operator .rightBrace, ⟨2, 38⟩⟩, ⟨.operator .rightParen, ⟨2, 39⟩⟩,
    ⟨.operator .leftBrace, ⟨2, 41⟩⟩, ⟨.ident "_", ⟨2, 43⟩⟩, ⟨.operator .assign, ⟨2, 45⟩⟩,
    ⟨.ident "struct", ⟨2, 47⟩⟩, ⟨.operator .leftBrace, ⟨2, 53⟩⟩, ⟨.ident "k", ⟨2, 55⟩⟩,
    ⟨.ident "K", ⟨2, 57⟩⟩, ⟨.operator .rightBrace, ⟨2, 59⟩⟩, ⟨.operator .leftBrace, ⟨2, 60⟩⟩,
    ⟨.operator .rightBrace, ⟨2, 61⟩⟩, ⟨.operator .rightBrace, ⟨2, 63⟩⟩, ⟨.semicolon, ⟨2, 64⟩⟩,
    ⟨.ident "type", ⟨3, 1⟩⟩, ⟨.ident "Z", ⟨3, 6⟩⟩, ⟨.ident "struct", ⟨3, 8⟩⟩,
    ⟨.operator .leftBrace, ⟨3, 14⟩⟩, ⟨.ident "z", ⟨3, 16⟩⟩, ⟨.ident "K", ⟨3, 18⟩⟩,
    ⟨.operator .rightBrace, ⟨3, 20⟩⟩, ⟨.semicolon, ⟨3, 21⟩⟩], ⟨4, 1⟩⟩

theorem functionAt_methodStream : FunctionAt (methodStream.tokens.drop 3) ["K", "T"]
    ((methodStream.tokens.drop 16).take 18) (methodStream.tokens.drop 34) := by
  have hbraces : Operator.closing? .leftBrace = some .rightBrace := rfl
  have hreceiver : Receiver ((methodStream.tokens.drop 5).take 5) ["K"] :=
    @Receiver.mk [⟨.ident "r", ⟨2, 7⟩⟩] [] _ "R" ⟨2, 9⟩ _ (.inr ⟨_, _, rfl⟩) (.inl rfl)
      (.list (@Declares.last "K" ⟨2, 11⟩ [] .nil))
  have hheader : Header ((methodStream.tokens.drop 4).take 12) ["K", "T"] :=
    .method hreceiver (by decide) (.list (@Declares.last "T" ⟨2, 17⟩ [⟨.ident "any", ⟨2, 19⟩⟩]
      (.plain rfl (by simp) .nil)))
  have hfields : Balanced ((methodStream.tokens.drop 20).take 2) := .plain rfl (.plain rfl .nil)
  have hsignature : Signature ((methodStream.tokens.drop 16).take 8) :=
    .token rfl (.token (by decide) (.literal hfields (.token rfl .nil)))
  have hbody : Balanced ((methodStream.tokens.drop 25).take 9) :=
    .plain rfl (.plain rfl
      (.plain rfl (@Balanced.group _ _ _ _ ((methodStream.tokens.drop 29).take 2) _
      hbraces (.plain rfl (.plain rfl .nil)) (@Balanced.group _ _ _ _ [] [] hbraces .nil .nil))))
  exact .mk hheader hsignature rfl hbody

theorem parameters_of_sites_of_method : ∃ outline,
    TokenStream.ofSource methodSource.toList = .ok methodStream ∧ ofTokens methodStream =
      .ok outline ∧
    ∀ site ∈ outline.sites, site.literal.position = ⟨2, 26⟩ ∨ site.literal.position = ⟨2, 47⟩ →
      ["K", "T"] ⊆ site.scope.parameters := by
  have hlex : TokenStream.ofSource methodSource.toList = .ok methodStream := by decide +kernel
  have hok : (ofTokens methodStream).isOk = true := by decide +kernel
  cases hparse : ofTokens methodStream with
  | error e =>
    rw [hparse] at hok
    cases hok
  | ok outline =>
    refine ⟨outline, hlex, rfl, fun site hsite hposition => ?_⟩
    obtain ⟨hstarts, hfunctions, -⟩ := parameters_of_sites hlex hparse
    obtain ⟨f, hf, hstart, hrest⟩ := hstarts (methodStream.tokens.take 3) ⟨2, 1⟩
      (methodStream.tokens.drop 4) rfl
      (.inr ⟨methodStream.tokens.take 2, ⟨1, 10⟩, .plain rfl (.plain rfl .nil), rfl⟩)
    obtain ⟨earlier, later, hmoves⟩ := List.append_of_mem hf
    have hfunction : FunctionAt f.cursor.rest ["K", "T"] ((methodStream.tokens.drop 16).take 18)
        (methodStream.tokens.drop 34) := by
      rw [hrest]
      exact functionAt_methodStream
    obtain ⟨-, -, hsites⟩ := hfunctions earlier f later _ _ _ hmoves hstart hfunction
    refine hsites site hsite ?_
    obtain hposition | hposition := hposition
    · exact ⟨⟨.ident "struct", ⟨2, 26⟩⟩, by decide, hposition.symm⟩
    · exact ⟨⟨.ident "struct", ⟨2, 47⟩⟩, by decide, hposition.symm⟩

/-- With the braces of an interface type in the signature the type parameters end there:
`func f[T any](x interface{}) { _ = struct{ t T }{} }`. -/
example : (ofTokens
    ⟨[⟨.ident "func", ⟨1, 1⟩⟩, ⟨.ident "f", ⟨1, 6⟩⟩, ⟨.operator .leftBracket, ⟨1, 7⟩⟩,
      ⟨.ident "T", ⟨1, 8⟩⟩, ⟨.ident "any", ⟨1, 10⟩⟩, ⟨.operator .rightBracket, ⟨1, 13⟩⟩,
      ⟨.operator .leftParen, ⟨1, 14⟩⟩, ⟨.ident "x", ⟨1, 15⟩⟩, ⟨.ident "interface", ⟨1, 17⟩⟩,
      ⟨.operator .leftBrace, ⟨1, 26⟩⟩, ⟨.operator .rightBrace, ⟨1, 27⟩⟩,
      ⟨.operator .rightParen, ⟨1, 28⟩⟩, ⟨.operator .leftBrace, ⟨1, 30⟩⟩, ⟨.ident "_", ⟨1, 32⟩⟩,
      ⟨.operator .assign, ⟨1, 34⟩⟩,
      ⟨.ident "struct", ⟨1, 36⟩⟩, ⟨.operator .leftBrace, ⟨1, 42⟩⟩, ⟨.ident "t", ⟨1, 44⟩⟩,
      ⟨.ident "T", ⟨1, 46⟩⟩, ⟨.operator .rightBrace, ⟨1, 48⟩⟩, ⟨.operator .leftBrace, ⟨1, 49⟩⟩,
      ⟨.operator .rightBrace, ⟨1, 50⟩⟩, ⟨.operator .rightBrace, ⟨1, 52⟩⟩, ⟨.semicolon, ⟨1, 53⟩⟩],
      ⟨2, 1⟩⟩).toOption.map (·.sites.map (·.scope.parameters)) = some [[]] := by decide +kernel

end Outline

end FieldOrder.Source
