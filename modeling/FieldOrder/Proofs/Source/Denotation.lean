import FieldOrder.Proofs.Shape
import FieldOrder.Proofs.Source.RoundTrip
import Mathlib.Data.List.Forall2
import Mathlib.Data.List.TakeWhile
import Mathlib.Order.Nat

/-! What a written type denotes under lexical scoping, as rules, and the resolver measured against
them: what it resolves is denoted, and what is denoted by a derivation no higher than its depth
limit is what it resolves to. The resolver finds recursion by the declarations that it is inside of;
a type that denotes something never comes back to one of them. -/
namespace FieldOrder

namespace Source

inductive Predeclared (width : IntWidth) : String → Shape → Prop
  | byte : Predeclared width "byte" (.scalar (.uint .w8))
  | rune : Predeclared width "rune" (.scalar (.int .w32))
  | int : Predeclared width "int" (.scalar (.int width))
  | uint : Predeclared width "uint" (.scalar (.uint width))
  | uintptr : Predeclared width "uintptr" (.scalar (.uint width))
  | string : Predeclared width "string" .string
  | error : Predeclared width "error" .interface
  | any : Predeclared width "any" .interface
  | scalar {name : String} (kind : Scalar) (h : kind.text = name) :
    Predeclared width name (.scalar kind)

/-- The scopes that resolution passes through when it starts in a scope: those of the local types
seen from there, and the one of the package. -/
def Scope.Inside (root scope : Scope) : Prop :=
  scope = .package ∨ scope.parameters = root.parameters ∧ scope.locals <:+ root.locals

namespace Env

/-- A written type denotes a shape in a scope, by a derivation of at most the given height. Only the
newest local type of a name counts, and a local type is read among those declared up to it; then
come the type parameters, the package and the predeclared types. -/
inductive Denotes (env : Env) : (height : Nat) → Scope → WrittenType → Shape → Prop
  | reference {n : Nat} {scope : Scope} : Denotes env (n + 1) scope .reference .pointer
  | slice {n : Nat} {scope : Scope} : Denotes env (n + 1) scope .slice .slice
  | interface {n : Nat} {scope : Scope} : Denotes env (n + 1) scope .interface .interface
  | array {n : Nat} {scope : Scope} {elem : WrittenType} {shape : Shape} (length : Nat)
    (h : Denotes env n scope elem shape) :
    Denotes env (n + 1) scope (.array (.known length) elem) (.array shape length)
  | struct {n : Nat} {scope : Scope} {fields : List (FieldDecl WrittenType)}
    (meaning : WrittenType → Shape)
    (h : ∀ f ∈ fields, Denotes env n scope f.type (meaning f.type)) :
    Denotes env (n + 1) scope (.struct fields)
      (.ofFields (fields.map fun f => (f.name, meaning f.type)))
  | unsafePointer {n : Nat} {scope : Scope} :
    Denotes env (n + 1) scope (.named (some "unsafe") "Pointer" false) .pointer
  | block {n : Nat} {parameters : List String} {newer older : List TypeDecl} {decl : TypeDecl}
    {name : String} {shape : Shape} (hnewer : ∀ d ∈ newer, d.name ≠ name) (hname : decl.name = name)
    (hgeneric : decl.generic = false)
    (h : Denotes env n ⟨parameters, decl :: older⟩ decl.type shape) :
    Denotes env (n + 1) ⟨parameters, newer ++ decl :: older⟩ (.named none name false) shape
  | package {n : Nat} {scope : Scope} {newer older : List TypeDecl} {decl : TypeDecl}
    {name : String}
    {shape : Shape} (hlocal : ∀ d ∈ scope.locals, d.name ≠ name) (hparam : name ∉ scope.parameters)
    (hdecls : env.decls = newer ++ decl :: older) (hnewer : ∀ d ∈ newer, d.name ≠ name)
    (hname : decl.name = name) (hgeneric : decl.generic = false)
    (h : Denotes env n .package decl.type shape) :
    Denotes env (n + 1) scope (.named none name false) shape
  | predeclared {n : Nat} {scope : Scope} {name : String} {shape : Shape}
    (hlocal : ∀ d ∈ scope.locals, d.name ≠ name) (hparam : name ∉ scope.parameters)
    (hdecls : ∀ d ∈ env.decls, d.name ≠ name) (h : Predeclared env.intWidth name shape) :
    Denotes env (n + 1) scope (.named none name false) shape

variable {env : Env} {n : Nat} {scope inner : Scope} {type : WrittenType} {shape : Shape}
  {name : String} {id : DeclId} {decl : TypeDecl}

def BindingDenotes (env : Env) (n : Nat) : Binding → Shape → Prop
  | .declared _ decl inner, shape => decl.generic = false ∧ env.Denotes n inner decl.type shape
  | .predeclared s, shape => shape = s
  | .parameter, _ | .undeclared, _ => False

theorem dropWhile_eq_cons_iff {decls older : List TypeDecl} :
    decls.dropWhile (·.name != name) = decl :: older ↔
      ∃ newer, decls = newer ++ decl :: older ∧ (∀ d ∈ newer, d.name ≠ name) ∧
        decl.name = name := by
  constructor
  · intro h
    refine ⟨decls.takeWhile (·.name != name), ?_, ?_, ?_⟩
    · rw [← h, List.takeWhile_append_dropWhile]
    · intro d hd
      simpa using List.mem_takeWhile_imp hd
    · have hhead := List.head?_dropWhile_not (·.name != name) decls
      simpa [h] using hhead
  · rintro ⟨newer, rfl, hnewer, hname⟩
    rw [List.dropWhile_append_of_pos (by simpa using hnewer),
      List.dropWhile_cons_of_neg (by simp [hname])]

theorem find?_eq_some_iff_newest {decls : List TypeDecl} :
    decls.find? (·.name == name) = some decl ↔
      ∃ newer older, decls = newer ++ decl :: older ∧ (∀ d ∈ newer, d.name ≠ name) ∧
        decl.name = name := by
  rw [List.find?_eq_some_iff_append]
  constructor
  · rintro ⟨hname, newer, older, rfl, hnewer⟩
    exact ⟨newer, older, rfl, by simpa using hnewer, by simpa using hname⟩
  · rintro ⟨newer, older, rfl, hnewer, hname⟩
    exact ⟨by simpa using hname, newer, older, rfl, by simpa using hnewer⟩

theorem predeclared?_eq_some_iff :
    env.predeclared? name = some shape ↔ Predeclared env.intWidth name shape := by
  constructor
  · intro h
    unfold predeclared? at h
    split at h <;> cases h <;> constructor
    all_goals rfl
  · intro h
    cases h with
    | scalar kind h => exact h ▸ predeclared?_scalar env kind
    | _ => rfl

theorem denotes_named_iff :
    env.Denotes (n + 1) scope (.named none name false) shape ↔
      env.BindingDenotes n (env.lookup scope name) shape := by
  constructor
  · intro h
    cases h with
    | @block _ parameters newer older decl _ _ hnewer hname hgeneric h =>
      have hdrop : (newer ++ decl :: older).dropWhile (·.name != name) = decl :: older :=
        dropWhile_eq_cons_iff.mpr ⟨newer, rfl, hnewer, hname⟩
      simp only [lookup, hdrop]
      exact ⟨hgeneric, h⟩
    | package hlocal hparam hdecls hnewer hname hgeneric h =>
      have hdrop : scope.locals.dropWhile (·.name != name) = [] := by
        simpa [List.dropWhile_eq_nil_iff] using hlocal
      have hfind := find?_eq_some_iff_newest.mpr ⟨_, _, hdecls, hnewer, hname⟩
      simp only [lookup, hdrop, hfind, List.contains_eq_mem, hparam, decide_false,
        Bool.false_eq_true, if_false]
      exact ⟨hgeneric, h⟩
    | predeclared hlocal hparam hdecls h =>
      have hdrop : scope.locals.dropWhile (·.name != name) = [] := by
        simpa [List.dropWhile_eq_nil_iff] using hlocal
      have hfind : env.decls.find? (·.name == name) = none := by simpa using hdecls
      simp only [lookup, hdrop, hfind, predeclared?_eq_some_iff.mpr h, List.contains_eq_mem, hparam,
        decide_false, Bool.false_eq_true, if_false]
      rfl
  · intro h
    rw [lookup] at h
    split at h
    case h_1 decl older hdrop =>
      obtain ⟨newer, hlocals, hnewer, hname⟩ := dropWhile_eq_cons_iff.mp hdrop
      obtain ⟨parameters, locals⟩ := scope
      cases hlocals
      exact .block hnewer hname h.1 h.2
    case h_2 hdrop =>
      have hlocal : ∀ d ∈ scope.locals, d.name ≠ name := by
        simpa [List.dropWhile_eq_nil_iff] using hdrop
      split at h
      · exact h.elim
      · rename_i hparam
        have hparam : name ∉ scope.parameters := by simpa using hparam
        split at h
        · rename_i decl hfind
          obtain ⟨newer, older, hdecls, hnewer, hname⟩ := find?_eq_some_iff_newest.mp hfind
          exact .package hlocal hparam hdecls hnewer hname h.1 h.2
        · rename_i hfind
          have hdecls : ∀ d ∈ env.decls, d.name ≠ name := by simpa using hfind
          split at h
          · rename_i s hpre
            cases h
            exact .predeclared hlocal hparam hdecls (predeclared?_eq_some_iff.mp hpre)
          · exact h.elim

theorem Denotes.succ (h : env.Denotes n scope type shape) :
    env.Denotes (n + 1) scope type shape := by
  induction h with
  | reference => exact .reference
  | slice => exact .slice
  | interface => exact .interface
  | array length _ ih => exact .array length ih
  | struct meaning _ ih => exact .struct meaning ih
  | unsafePointer => exact .unsafePointer
  | block hnewer hname hgeneric _ ih => exact .block hnewer hname hgeneric ih
  | package hlocal hparam hdecls hnewer hname hgeneric _ ih =>
    exact .package hlocal hparam hdecls hnewer hname hgeneric ih
  | predeclared hlocal hparam hdecls h => exact .predeclared hlocal hparam hdecls h

theorem Denotes.mono {m : Nat} (h : env.Denotes n scope type shape) (hm : n ≤ m) :
    env.Denotes m scope type shape :=
  Nat.le_induction h (fun _ _ => Denotes.succ) m hm

theorem Denotes.unique {m : Nat} {other : Shape} (h : env.Denotes n scope type shape)
    (ho : env.Denotes m scope type other) : shape = other := by
  induction n generalizing m scope type shape other with
  | zero => cases h
  | succ n ih =>
    have hnamed {name : String} (h : env.Denotes (n + 1) scope (.named none name false) shape)
        (ho : env.Denotes m scope (.named none name false) other) : shape = other := by
      have ho := denotes_named_iff.mp ho.succ
      have h := denotes_named_iff.mp h
      cases hb : env.lookup scope name with
      | declared id decl inner =>
        rw [hb] at h ho
        exact ih h.2 ho.2
      | predeclared s =>
        rw [hb] at h ho
        exact h.trans ho.symm
      | parameter | undeclared =>
        rw [hb] at h
        exact h.elim
    cases h with
    | array length h =>
      cases ho with
      | array _ ho => rw [ih h ho]
    | struct meaning h =>
      cases ho with
      | struct other ho =>
        congr 1
        apply List.map_congr_left
        intro f hf
        rw [ih (h f hf) (ho f hf)]
    | block hnewer hname hgeneric h => exact hnamed (.block hnewer hname hgeneric h) ho
    | package hlocal hparam hdecls hnewer hname hgeneric h =>
      exact hnamed (.package hlocal hparam hdecls hnewer hname hgeneric h) ho
    | predeclared hlocal hparam hdecls h => exact hnamed (.predeclared hlocal hparam hdecls h) ho
    | _ =>
      cases ho
      rfl

theorem denotes_resolve (depth : Nat) (scope : Scope) (visiting : List DeclId) (type : WrittenType)
    (h : (env.resolve depth scope visiting type).Resolved) :
    env.Denotes depth scope type (env.resolve depth scope visiting type) := by
  induction depth generalizing scope visiting type with
  | zero => exact h.elim
  | succ depth ih =>
    unfold resolve at h ⊢
    split at h
    case h_1 => exact .reference
    case h_2 => exact .slice
    case h_3 => exact .interface
    case h_4 length elem => exact .array length (ih scope visiting elem h)
    case h_6 fields =>
      rw [Shape.resolved_ofFields, List.forall_mem_map] at h
      exact .struct (env.resolve depth scope visiting) fun f hf => ih scope visiting f.type (h f hf)
    case h_7 => exact .unsafePointer
    case h_11 name =>
      rw [denotes_named_iff]
      cases hb : env.lookup scope name with
      | declared id decl inner =>
        simp only [hb] at h ⊢
        split at h
        · exact h.elim
        · rename_i hgeneric
          split at h
          · exact h.elim
          · rename_i hvisiting
            rw [if_neg hgeneric, if_neg hvisiting]
            exact ⟨by simpa using hgeneric, ih inner (id :: visiting) decl.type h⟩
      | predeclared s => rfl
      | parameter | undeclared =>
        simp only [hb] at h
        exact h.elim
    all_goals exact h.elim

inductive Identifies (env : Env) (root : Scope) : DeclId → TypeDecl → Scope → Prop
  | package {name : String} {decl : TypeDecl} (h : env.decls.find? (·.name == name) = some decl) :
    Identifies env root (.package name) decl .package
  | block {newer older : List TypeDecl} {decl : TypeDecl}
    (h : root.locals = newer ++ decl :: older) :
    Identifies env root (.block older.length) decl ⟨root.parameters, decl :: older⟩

theorem Identifies.unique {root : Scope} {other : TypeDecl} {outer : Scope}
    (h : env.Identifies root id decl inner) (ho : env.Identifies root id other outer) :
    decl = other ∧ inner = outer := by
  cases h with
  | package h =>
    cases ho with
    | package ho => exact ⟨Option.some.inj (h.symm.trans ho), rfl⟩
  | @block newer older _ h =>
    generalize hk : older.length = k at ho
    cases ho with
    | block ho =>
      have htail := List.append_inj_right' (h.symm.trans ho) (by simp [hk])
      cases htail
      exact ⟨rfl, rfl⟩

theorem identifies_of_lookup {root : Scope} (hscope : Scope.Inside root scope)
    (h : env.lookup scope name = .declared id decl inner) :
    env.Identifies root id decl inner ∧ Scope.Inside root inner := by
  rw [lookup] at h
  split at h
  case h_1 _ older hdrop =>
    cases h
    obtain ⟨newer, hlocals, -⟩ := dropWhile_eq_cons_iff.mp hdrop
    obtain rfl | ⟨hparam, newest, hnewest⟩ := hscope
    · simp [Scope.package] at hlocals
    · have hroot : root.locals = newest ++ newer ++ decl :: older := by
        rw [← hnewest, hlocals, List.append_assoc]
      rw [hparam]
      exact ⟨.block hroot, .inr ⟨rfl, newest ++ newer, hroot.symm⟩⟩
  case h_2 hdrop =>
    split at h
    · cases h
    · split at h
      · rename_i hfind
        cases h
        exact ⟨.package hfind, .inl rfl⟩
      · split at h <;> cases h

def Unreached (env : Env) (root : Scope) (n : Nat) (id : DeclId) : Prop :=
  ∀ decl inner shape, env.Identifies root id decl inner → ¬ env.Denotes n inner decl.type shape

theorem Unreached.anti {root : Scope} {m : Nat} (h : env.Unreached root n id) (hm : m ≤ n) :
    env.Unreached root m id :=
  fun decl inner shape hid hd => h decl inner shape hid (hd.mono hm)

theorem Denotes.exists_least (h : env.Denotes n scope type shape) :
    ∃ m < n, env.Denotes (m + 1) scope type shape ∧ ∀ other, ¬ env.Denotes m scope type other := by
  classical
  have hex : ∃ m, ∃ s, env.Denotes m scope type s := ⟨n, shape, h⟩
  obtain ⟨s, hs⟩ := Nat.find_spec hex
  have hle : Nat.find hex ≤ n := Nat.find_min' hex ⟨shape, h⟩
  have hmin {m : Nat} (hm : m < Nat.find hex) (other : Shape) : ¬ env.Denotes m scope type other :=
    fun ho => Nat.find_min hex hm ⟨other, ho⟩
  cases hm : Nat.find hex with
  | zero =>
    rw [hm] at hs
    cases hs
  | succ m =>
    rw [hm] at hs
    exact ⟨m, by omega, h.unique hs ▸ hs, hmin (by omega)⟩

/-- What a type denotes is what it resolves to, as deep as its derivation is high. The declarations
that it stands in have only higher derivations than the parts of its own, so none of them is met
again. -/
theorem resolve_eq_of_denotes {root : Scope} {depth : Nat} {visiting : List DeclId}
    (hscope : Scope.Inside root scope) (h : env.Denotes (n + 1) scope type shape)
    (hvisiting : ∀ id ∈ visiting, env.Unreached root n id) (hdepth : n < depth) :
    env.resolve depth scope visiting type = shape := by
  induction n using Nat.strongRecOn generalizing depth scope visiting type shape with
  | ind n ih =>
    obtain ⟨depth, rfl⟩ := Nat.exists_eq_succ_of_ne_zero (Nat.ne_zero_of_lt hdepth)
    -- The parts of the type stand in the same declarations and have lower derivations.
    have hpart {part : WrittenType} {s : Shape} (h : env.Denotes n scope part s) :
        env.resolve depth scope visiting part = s := by
      obtain ⟨m, hm, hleast, -⟩ := h.exists_least
      exact ih m hm hscope hleast (fun id hid => (hvisiting id hid).anti hm.le) (by omega)
    have hnamed {name : String} (h : env.Denotes (n + 1) scope (.named none name false) shape) :
        env.resolve (depth + 1) scope visiting (.named none name false) = shape := by
      have h := denotes_named_iff.mp h
      cases hb : env.lookup scope name with
      | declared id decl inner =>
        rw [hb] at h
        obtain ⟨hgeneric, h⟩ := h
        obtain ⟨hid, hinner⟩ := identifies_of_lookup hscope hb
        have hnew : id ∉ visiting := fun hmem => hvisiting id hmem decl inner shape hid h
        -- A derivation of least height for the right-hand side does not use it again.
        obtain ⟨m, hm, hleast, hmin⟩ := h.exists_least
        have hid' : env.Unreached root m id := by
          intro decl' inner' s hid' hd
          obtain ⟨rfl, rfl⟩ := hid.unique hid'
          exact hmin s hd
        have hinside : ∀ i ∈ id :: visiting, env.Unreached root m i :=
          List.forall_mem_cons.mpr ⟨hid', fun i hi => (hvisiting i hi).anti hm.le⟩
        have hresolve := ih m hm hinner hleast hinside (show m < depth by omega)
        simp [resolve, hb, hgeneric, hnew, hresolve]
      | predeclared s =>
        rw [hb] at h
        cases h
        simp [resolve, hb]
      | parameter | undeclared =>
        rw [hb] at h
        exact h.elim
    cases h with
    | array length h => simp [resolve, hpart h]
    | struct meaning h =>
      rw [resolve]
      congr 1
      apply List.map_congr_left
      intro f hf
      rw [hpart (h f hf)]
    | block hnewer hname hgeneric h => exact hnamed (.block hnewer hname hgeneric h)
    | package hlocal hparam hdecls hnewer hname hgeneric h =>
      exact hnamed (.package hlocal hparam hdecls hnewer hname hgeneric h)
    | predeclared hlocal hparam hdecls h => exact hnamed (.predeclared hlocal hparam hdecls h)
    | reference | slice | interface | unsafePointer => rfl

def FieldsDenote (env : Env) (n : Nat) (scope : Scope) (fields : List (FieldDecl WrittenType))
    (shapes : List Shape) : Prop :=
  List.Forall₂ (fun f shape => env.Denotes n scope f.type shape) fields shapes

/-- Resolving fields is lexical scoping. What has been resolved is denoted, and all that is denoted
by derivations no higher than 256 is resolved to what it denotes. -/
theorem resolveStruct_denotes (env : Env) (scope : Scope) (fields : List (FieldDecl WrittenType)) :
    ((env.resolveStruct scope fields).Resolved →
      ∃ shapes, env.FieldsDenote 256 scope fields shapes ∧ env.resolveStruct scope fields =
      .ofFields ((fields.map (·.name)).zip shapes)) ∧
    ∀ shapes, env.FieldsDenote 256 scope fields shapes →
      env.resolveStruct scope fields = .ofFields ((fields.map (·.name)).zip shapes) := by
  have hzip : env.resolveStruct scope fields = .ofFields ((fields.map (·.name)).zip
      (fields.map fun f => env.resolve 256 scope [] f.type)) := by
    rw [resolveStruct, List.zip_map', depthLimit]
  constructor
  · intro h
    refine ⟨_, ?_, hzip⟩
    rw [resolveStruct, Shape.resolved_ofFields, List.forall_mem_map] at h
    rw [FieldsDenote, List.forall₂_map_right_iff, List.forall₂_same]
    exact fun f hf => denotes_resolve 256 scope [] f.type (h f hf)
  · intro shapes h
    have hshapes : fields.map (fun f => env.resolve 256 scope [] f.type) = shapes := by
      rw [← List.forall₂_eq_eq_eq, List.forall₂_map_left_iff]
      apply h.imp
      intro f shape hf
      exact resolve_eq_of_denotes (.inr ⟨rfl, List.suffix_rfl⟩) hf (by simp) (by omega)
    rw [hzip, hshapes]

def shadowedEnv : Env :=
  ⟨[⟨"W", false, .named none "T" false⟩,
    ⟨"T", false, .array (.known 64) (.named none "byte" false)⟩], .w64⟩

def shadowedScope : Scope :=
  ⟨["P"], [⟨"U", false, .named none "uintptr" false⟩, ⟨"U", false, .named none "T" false⟩,
    ⟨"T", false, .named none "int8" false⟩]⟩

def shadowedFields : List (FieldDecl WrittenType) :=
  [⟨"t", .named none "T" false⟩, ⟨"u", .named none "U" false⟩, ⟨"w", .named none "W" false⟩]

theorem resolveStruct_denotes_of_shadowed :
    shadowedEnv.FieldsDenote 256 shadowedScope shadowedFields
      [.scalar (.int .w8), .scalar (.uint .w64), .array (.scalar (.uint .w8)) 64] ∧
    shadowedEnv.resolveStruct shadowedScope shadowedFields =
      .struct [⟨"t", .scalar (.int .w8), 0⟩, ⟨"u", .scalar (.uint .w64), 1⟩,
        ⟨"w", .array (.scalar (.uint .w8)) 64, 2⟩] ∧
    (shadowedEnv.resolveStruct shadowedScope shadowedFields).Resolved ∧
    ∃ shapes, shadowedEnv.FieldsDenote 256 shadowedScope shadowedFields shapes ∧
      shadowedEnv.resolveStruct shadowedScope shadowedFields =
        .ofFields ((shadowedFields.map (·.name)).zip shapes) := by
  have ht : shadowedEnv.Denotes 256 ⟨["P"], shadowedScope.locals.take 2 ++
      [⟨"T", false, .named none "int8" false⟩]⟩ (.named none "T" false) (.scalar (.int .w8)) :=
    .block (by decide) rfl rfl (.predeclared (by decide) (by decide) (by decide) (.scalar _ rfl))
  have hu : shadowedEnv.Denotes 256 ⟨["P"], [] ++ shadowedScope.locals⟩ (.named none "U" false)
      (.scalar (.uint .w64)) :=
    .block (by decide) rfl rfl (.predeclared (by decide) (by decide) (by decide) .uintptr)
  have hT : shadowedEnv.Denotes 255 .package (.named none "T" false)
      (.array (.scalar (.uint .w8)) 64) :=
    .package (by decide) (by decide)
      (show shadowedEnv.decls = shadowedEnv.decls.take 1 ++ _ from rfl)
      (by decide) rfl rfl
      (.array 64 (.predeclared (by decide) (by decide) (by decide) .byte))
  have hw : shadowedEnv.Denotes 256 shadowedScope (.named none "W" false)
      (.array (.scalar (.uint .w8)) 64) :=
    .package (by decide) (by decide) (show shadowedEnv.decls = [] ++ _ from rfl)
      (by decide) rfl rfl hT
  have hfields : shadowedEnv.FieldsDenote 256 shadowedScope shadowedFields
      [.scalar (.int .w8), .scalar (.uint .w64), .array (.scalar (.uint .w8)) 64] :=
    .cons ht (.cons hu (.cons hw .nil))
  have heq := (resolveStruct_denotes shadowedEnv shadowedScope shadowedFields).2 _ hfields
  have hresolved : (shadowedEnv.resolveStruct shadowedScope shadowedFields).Resolved := by
    rw [heq]
    simp [shadowedFields, Shape.ofFields, Shape.Resolved, Shape.FieldsResolved]
  exact ⟨hfields, heq, hresolved,
    (resolveStruct_denotes shadowedEnv shadowedScope shadowedFields).1 hresolved⟩

end Env

end Source

end FieldOrder
