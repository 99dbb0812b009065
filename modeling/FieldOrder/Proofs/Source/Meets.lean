import FieldOrder.Proofs.Layout.Placement
import FieldOrder.Proofs.Source.Passage
import FieldOrder.Proofs.Source.Rounds

/-! What a reader does at a place, said once for all purposes: what it yields, that it goes on from
there, that it fails only for a reason in the text, and that it does the same as another reader,
which is the same one with another amount of fuel. The rules say how this carries over from the
parts of a reader to the whole. -/
namespace FieldOrder.Source

/-- The failure tells what is wrong with the text: it names a token ahead or the end of the file,
and it is not that reading was broken off. -/
structure Failure.Genuine (e : Failure) (ahead : List Token) : Prop where
  finished : e.problem ≠ .unfinished
  place : ∀ p ∈ e.position, ∃ t ∈ ahead, t.position = p

theorem Failure.Genuine.of_behind {e : Failure} {c d : Cursor} (h : e.Genuine d.rest)
    (hd : c.Behind d) : e.Genuine c.rest where
  finished := h.finished
  place p hp := by
    obtain ⟨t, ht, hposition⟩ := h.place p hp
    exact ⟨t, hd.suffix.subset ht, hposition⟩

namespace Reader

variable {α β : Type}

/-- The first reader goes on from the cursor and yields what has the property. If there is enough
fuel, the second one does the same, and they fail only for a reason that is in the text. -/
structure Meets (r s : Reader α) (enough : Prop) (c : Cursor) (post : Reading α → Prop) : Prop where
  behind : r.Yields c (c.Behind ·.cursor)
  yields : r.Yields c post
  same : enough → r c = s c
  genuine : enough → ∀ e, r c = .error e → e.Genuine c.rest

namespace Meets

variable {r s : Reader α} {f g : α → Reader β} {enough : Prop} {c : Cursor}
  {post : Reading α → Prop} {after : Reading β → Prop}

theorem mono {weaker : Reading α → Prop} (h : r.Meets s enough c post)
    (hw : ∀ a, c.Behind a.cursor → post a → weaker a) : r.Meets s enough c weaker where
  behind := h.behind
  yields a ha := hw a (h.behind a ha) (h.yields a ha)
  same := h.same
  genuine := h.genuine

theorem weaken {less : Prop} (h : r.Meets s enough c post) (hless : less → enough) :
    r.Meets s less c post where
  behind := h.behind
  yields := h.yields
  same hl := h.same (hless hl)
  genuine hl := h.genuine (hless hl)

theorem of_not {s' : Reader α} {more : Prop} (h : r.Meets s enough c post) (hnot : ¬ more) :
    r.Meets s' more c post where
  behind := h.behind
  yields := h.yields
  same hmore := absurd hmore hnot
  genuine hmore := absurd hmore hnot

theorem eq (h : r.Meets s enough c post) : r.Meets s enough c fun a => r c = .ok a ∧ post a where
  behind := h.behind
  yields a ha := ⟨ha, h.yields a ha⟩
  same := h.same
  genuine := h.genuine

theorem bind (h : r.Meets s enough c post)
    (hf : ∀ a, c.Behind a.cursor → post a → (f a.value).Meets (g a.value) enough a.cursor fun b =>
      after ⟨b.value, a.literals ++ b.literals, b.cursor⟩) :
    (r >>= f).Meets (s >>= g) enough c after where
  behind := by
    rw [yields_bind]
    intro a ha b hb
    have hbehind := h.behind a ha
    exact hbehind.trans ((hf a hbehind (h.yields a ha)).behind b hb)
  yields := by
    rw [yields_bind]
    exact fun a ha => (hf a (h.behind a ha) (h.yields a ha)).yields
  same henough := by
    rw [bind_apply, bind_apply, ← h.same henough]
    cases hr : r c with
    | error e => rfl
    | ok a =>
      simp only [Except.bind]
      rw [(hf a (h.behind a hr) (h.yields a hr)).same henough]
  genuine henough e he := by
    obtain he | ⟨a, ha, he⟩ := bind_eq_error.mp he
    · exact h.genuine henough e he
    · have hbehind := h.behind a ha
      obtain he | ⟨b, -, he⟩ := bind_eq_error.mp he
      · exact ((hf a hbehind (h.yields a ha)).genuine henough e he).of_behind hbehind
      · cases he

theorem of_ok {a : Reading α} (h : r c = .ok a) (ha : c.Behind a.cursor) (hpost : post a) :
    r.Meets r enough c post where
  behind := (yields_of_eq_ok h).mpr ha
  yields := (yields_of_eq_ok h).mpr hpost
  same _ := rfl
  genuine _ e he := by
    rw [h] at he
    cases he

/-- A reader that cannot fail and notes nothing comes first. -/
theorem step {value : α} {d : Cursor} (h : r c = .ok ⟨value, [], d⟩) (hd : c.Behind d)
    (hf : (f value).Meets (g value) enough d after) :
    (r >>= f).Meets (r >>= g) enough c after := by
  have hfirst : r.Meets r enough c (· = ⟨value, [], d⟩) := of_ok h hd rfl
  refine hfirst.bind fun a _ ha => ?_
  subst ha
  exact hf

theorem peek {f g : Option TokenKind → Reader β}
    (h : (f (c.rest.head?.map (·.kind))).Meets (g (c.rest.head?.map (·.kind))) enough c after) :
    (peek >>= f).Meets (peek >>= g) enough c after := step rfl (.refl c) h

theorem ahead {f g : List Token → Reader β} (h : (f c.rest).Meets (g c.rest) enough c after) :
    (ahead >>= f).Meets (ahead >>= g) enough c after := step rfl (.refl c) h

theorem skip {f g : Unit → Reader β} (h : (f ()).Meets (g ()) enough c.skip after) :
    (skip >>= f).Meets (skip >>= g) enough c after := step rfl (.skip c) h

theorem advance {n : Nat} {f g : Unit → Reader β}
    (h : (f ()).Meets (g ()) enough (c.advance n) after) :
    (advance n >>= f).Meets (advance n >>= g) enough c after := step rfl (.advance n c) h

theorem skipIf {kind : TokenKind} {f g : Unit → Reader β}
    (h : (f ()).Meets (g ()) enough
      (if c.rest.head?.map (·.kind) = some kind then c.skip else c) after) :
    (skipIf kind >>= f).Meets (skipIf kind >>= g) enough c after := by
  refine step ?_ (.skipIf c kind) h
  by_cases hkind : c.rest.head?.map (·.kind) = some kind
  · simp [Reader.skipIf, Reader.peek, Reader.skip, hkind, Except.bind]
  · simp [Reader.skipIf, Reader.peek, hkind, Except.bind]

theorem pure {a : α} (h : post ⟨a, [], c⟩) : (pure a : Reader α).Meets (pure a) enough c post :=
  of_ok rfl (.refl c) h

theorem pure_bind {a : α} (h : (f a).Meets (g a) enough c after) :
    ((Pure.pure a : Reader α) >>= f).Meets ((Pure.pure a : Reader α) >>= g) enough c after :=
  step rfl (.refl c) h

theorem fail {problem : Problem} (h : problem ≠ .unfinished) :
    (fail problem : Reader α).Meets (fail problem) enough c post where
  behind := by simp
  yields := by simp
  same _ := rfl
  genuine _ e he := by
    cases he
    refine ⟨h, fun p hp => ?_⟩
    obtain ⟨t, ht, rfl⟩ := Option.map_eq_some_iff.mp hp
    exact ⟨t, List.mem_of_mem_head? ht, rfl⟩

theorem fail_bind {problem : Problem} (h : problem ≠ .unfinished) :
    ((Reader.fail problem : Reader α) >>= f).Meets ((Reader.fail problem : Reader α) >>= g) enough c
      after := by
  have hfail : (Reader.fail problem : Reader α).Meets (Reader.fail problem) enough c
      fun _ => False := fail h
  exact hfail.bind fun _ _ hfalse => hfalse.elim

theorem failAtEnd {problem : Problem} (h : problem ≠ .unfinished) :
    (failAtEnd problem : Reader α).Meets (failAtEnd problem) enough c post where
  behind := by simp
  yields := by simp
  same _ := rfl
  genuine _ e he := by
    cases he
    exact ⟨h, fun p hp => by cases hp⟩

/-- Without fuel nothing is read, and there is not enough of it. -/
theorem unfinished (h : ¬ enough) : (Reader.fail .unfinished : Reader α).Meets s enough c post where
  behind := by simp
  yields := by simp
  same henough := absurd henough h
  genuine henough := absurd henough h

theorem ite {p : Prop} [Decidable p] {r' s' : Reader α} (h : p → r.Meets s enough c post)
    (h' : ¬ p → r'.Meets s' enough c post) :
    (if p then r else r').Meets (if p then s else s') enough c post := by
  split
  · exact h ‹_›
  · exact h' ‹_›

theorem ident {f g : String → Reader β} (h : ∀ name p ts, c.rest = ⟨.ident name, p⟩ :: ts →
      (f name).Meets (g name) enough ⟨some (.ident name), ts⟩ after) :
    (ident >>= f).Meets (ident >>= g) enough c after := by
  have hident : Reader.ident.Meets Reader.ident enough c fun a => ∃ p ts,
      c.rest = ⟨.ident a.value, p⟩ :: ts ∧ a = ⟨a.value, [], ⟨some (.ident a.value), ts⟩⟩ := by
    refine .peek ?_
    split
    · rename_i name hname
      obtain ⟨p, ts, hrest⟩ := head_eq_some hname
      exact .skip (.pure ⟨p, ts, hrest, by rw [Cursor.skip_of_rest hrest]⟩)
    · exact .fail (by simp)
  refine hident.bind fun a _ ha => ?_
  obtain ⟨p, ts, hrest, heq⟩ := ha
  rw [heq]
  exact h a.value p ts hrest

theorem expect {op : Operator} {f g : Unit → Reader β}
    (h : ∀ p ts, c.rest = ⟨.operator op, p⟩ :: ts →
      (f ()).Meets (g ()) enough ⟨some (.operator op), ts⟩ after) :
    (expect op >>= f).Meets (expect op >>= g) enough c after := by
  have hexpect : (Reader.expect op).Meets (Reader.expect op) enough c fun a => ∃ p ts,
      c.rest = ⟨.operator op, p⟩ :: ts ∧ a = ⟨(), [], ⟨some (.operator op), ts⟩⟩ := by
    refine .peek (.ite (fun hop => ?_) fun _ => .fail (by simp))
    obtain ⟨p, ts, hrest⟩ := head_eq_some hop
    exact .of_ok rfl (.skip c) ⟨p, ts, hrest, by rw [Cursor.skip_of_rest hrest]⟩
  refine hexpect.bind fun a _ ha => ?_
  obtain ⟨p, ts, hrest, rfl⟩ := ha
  exact h p ts hrest

/-- The value is handed on in another form at the end. -/
theorem bind_pure {k : α → β}
    (h : r.Meets s enough c fun a => after ⟨k a.value, a.literals, a.cursor⟩) :
    (r >>= fun a => Pure.pure (k a)).Meets (s >>= fun a => Pure.pure (k a)) enough c after := by
  refine h.bind fun a _ ha => .pure ?_
  rw [List.append_nil]
  exact ha

theorem discard {after : Reading Unit → Prop}
    (h : r.Meets s enough c fun a => after ⟨(), a.literals, a.cursor⟩) :
    (discard r).Meets (discard s) enough c after := bind_pure h

theorem andOn {round round' : Reader (Option (List α))} {again again' : Reader (List α)}
    {post : Reading (Option (List α)) → Prop} {after : Reading (List α) → Prop}
    (h : round.Meets round' enough c post)
    (hlast : ∀ a, post a → a.value = none → after ⟨[], a.literals, a.cursor⟩)
    (hagain : ∀ a found, post a → a.value = some found → again.Meets again' enough a.cursor fun b =>
      after ⟨found ++ b.value, a.literals ++ b.literals, b.cursor⟩) :
    (round.andOn again).Meets (round'.andOn again') enough c after := by
  refine h.bind fun a _ ha => ?_
  split
  · rename_i hnone
    refine .pure ?_
    rw [List.append_nil]
    exact hlast a ha hnone
  · rename_i found hfound
    exact .bind_pure (hagain a found ha hfound)

/-- Readers that hand on what another one yields, in another form. -/
theorem map {r' s' : Reader β} (change : Reading α → Reading β)
    (h : r.Meets s enough c fun a => after (change a))
    (hr : r' c = (r c).bind fun a => .ok (change a))
    (hs : s' c = (s c).bind fun a => .ok (change a))
    (hchange : ∀ a, c.Behind a.cursor → c.Behind (change a).cursor) :
    r'.Meets s' enough c after where
  behind b hb := by
    rw [hr] at hb
    obtain ⟨a, ha, hb⟩ := bind_eq_ok.mp hb
    cases hb
    exact hchange a (h.behind a ha)
  yields b hb := by
    rw [hr] at hb
    obtain ⟨a, ha, hb⟩ := bind_eq_ok.mp hb
    cases hb
    exact h.yields a ha
  same henough := by rw [hr, hs, h.same henough]
  genuine henough e he := by
    rw [hr] at he
    obtain he | ⟨a, -, he⟩ := bind_eq_error.mp he
    · exact h.genuine henough e he
    · cases he

end Meets

end Reader

end FieldOrder.Source
