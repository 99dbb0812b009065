import FieldOrder.Proofs.Source.Denotation
import FieldOrder.Proofs.Source.Walk
import Mathlib.Data.List.Dedup
import Mathlib.Data.List.Perm.Subperm
import Mathlib.Logic.Relation

/-! Types that hold themselves. The declarations seen from a scope make up a graph, by the names
that their right-hand sides use by value. The resolver marks a recursive type exactly if a cycle of
this graph can be reached, unless it gives up for depth; and it is never inside one declaration
twice. -/
namespace FieldOrder.Source

/-! ### The graph of declarations -/

namespace Env

/-- The declaration that a name stands for in a scope, and the scope of its right-hand side. The
newest local type of the name counts; a declaration of the package counts if nothing else is in the
way. -/
inductive Binds (env : Env) : Scope → String → DeclId → TypeDecl → Scope → Prop
  | block {parameters : List String} {newer older : List TypeDecl} {decl : TypeDecl} {name : String}
    (hnewer : ∀ d ∈ newer, d.name ≠ name) (hname : decl.name = name) :
    Binds env ⟨parameters, newer ++ decl :: older⟩ name (.block older.length) decl
      ⟨parameters, decl :: older⟩
  | package {scope : Scope} {newer older : List TypeDecl} {decl : TypeDecl} {name : String}
    (hlocal : ∀ d ∈ scope.locals, d.name ≠ name) (hparam : name ∉ scope.parameters)
    (hdecls : env.decls = newer ++ decl :: older) (hnewer : ∀ d ∈ newer, d.name ≠ name)
    (hname : decl.name = name) :
    Binds env scope name (.package name) decl .package

/-- A written type uses a declaration by value: by its name, in an array, be it empty, or in a
struct. Pointers, slices and their like use nothing, and neither do generic types. -/
inductive Uses (env : Env) (scope : Scope) : WrittenType → DeclId → Prop
  | named {name : String} {id : DeclId} {decl : TypeDecl} {inner : Scope}
    (h : env.Binds scope name id decl inner) (hgeneric : decl.generic = false) :
    Uses env scope (.named none name false) id
  | element {length : Nat} {elem : WrittenType} {id : DeclId} (h : Uses env scope elem id) :
    Uses env scope (.array (.known length) elem) id
  | field {fields : List (FieldDecl WrittenType)} {f : FieldDecl WrittenType} {id : DeclId}
    (hf : f ∈ fields) (h : Uses env scope f.type id) : Uses env scope (.struct fields) id

def Holds (env : Env) (root : Scope) (id other : DeclId) : Prop :=
  ∃ decl inner, env.Identifies root id decl inner ∧ decl.generic = false ∧
    env.Uses inner decl.type other

def Reaches (env : Env) (scope : Scope) (fields : List (FieldDecl WrittenType)) (id : DeclId) :
    Prop :=
  ∃ f ∈ fields, ∃ first, env.Uses scope f.type first ∧
    Relation.ReflTransGen (env.Holds scope) first id

def ReachesCycle (env : Env) (scope : Scope) (fields : List (FieldDecl WrittenType)) : Prop :=
  ∃ id, env.Reaches scope fields id ∧ Relation.TransGen (env.Holds scope) id id

end Env

inductive WrittenType.Mentions (word : String) : WrittenType → Prop
  | name {package : Option String} {args : Bool} : Mentions word (.named package word args)
  | package {name : String} {args : Bool} : Mentions word (.named (some word) name args)
  | element {length : ArrayLength} {elem : WrittenType} (h : Mentions word elem) :
    Mentions word (.array length elem)
  | field {fields : List (FieldDecl WrittenType)} {f : FieldDecl WrittenType} (hf : f ∈ fields)
    (h : Mentions word f.type) : Mentions word (.struct fields)

def WrittenType.Spaceless (type : WrittenType) : Prop :=
  ∀ word, type.Mentions word → ' ' ∉ word.toList

namespace Env

variable {env : Env} {scope inner root : Scope} {name : String} {id : DeclId} {decl : TypeDecl}

theorem binds_iff_lookup : env.Binds scope name id decl inner ↔
    env.lookup scope name = .declared id decl inner := by
  constructor
  · intro h
    cases h with
    | @block parameters newer older _ _ hnewer hname =>
      have hdrop : (newer ++ decl :: older).dropWhile (·.name != name) = decl :: older :=
        dropWhile_eq_cons_iff.mpr ⟨newer, rfl, hnewer, hname⟩
      simp only [lookup, hdrop]
    | package hlocal hparam hdecls hnewer hname =>
      have hdrop : scope.locals.dropWhile (·.name != name) = [] := by
        simpa [List.dropWhile_eq_nil_iff] using hlocal
      have hfind := find?_eq_some_iff_newest.mpr ⟨_, _, hdecls, hnewer, hname⟩
      simp [lookup, hdrop, hfind, hparam]
  · intro h
    rw [lookup] at h
    split at h
    case h_1 older hdrop =>
      cases h
      obtain ⟨newer, hlocals, hnewer, hname⟩ := dropWhile_eq_cons_iff.mp hdrop
      obtain ⟨parameters, locals⟩ := scope
      cases hlocals
      exact .block hnewer hname
    case h_2 hdrop =>
      have hlocal : ∀ d ∈ scope.locals, d.name ≠ name := by
        simpa [List.dropWhile_eq_nil_iff] using hdrop
      split at h
      · cases h
      · rename_i hparam
        split at h
        · rename_i hfind
          cases h
          obtain ⟨newer, older, hdecls, hnewer, hname⟩ := find?_eq_some_iff_newest.mp hfind
          exact .package hlocal (by simpa using hparam) hdecls hnewer hname
        · split at h <;> cases h

end Env

/-! ### Marks in the result -/

namespace Obstacle

variable {text name : String}

theorem toList_recursive (name : String) :
    (recursive name).text.toList = "invalid".toList ++ ' ' ::
    ("recursive type ".toList ++ name.toList) := by
  have hwords : "invalid recursive type ".toList = "invalid".toList ++ ' ' ::
    "recursive type ".toList := by
    decide
  show ("invalid recursive type " ++ name).toList = _
  rw [String.toList_append, hwords, List.append_assoc, List.cons_append]

theorem ne_recursive_of_head {c : Char} (h : text.toList.head? = some c) (hc : c ≠ 'i') :
    text ≠ (recursive name).text := by
  have hhead : "invalid".toList.head? = some 'i' := by decide
  intro heq
  rw [heq, toList_recursive, List.head?_append, hhead] at h
  cases h
  exact hc rfl

theorem append_ne_recursive {start word : String} {c : Char} (hstart : start.toList.head? = some c)
    (hc : c ≠ 'i') : start ++ word ≠ (recursive name).text := by
  refine ne_recursive_of_head ?_ hc
  rw [String.toList_append, List.head?_append, hstart]
  rfl

theorem tooDeep_ne_recursive : tooDeep.text ≠ (recursive name).text :=
  ne_recursive_of_head (c := 't') (by decide) (by decide)

theorem ne_recursive_of_spaceless (h : ' ' ∉ text.toList) : text ≠ (recursive name).text := by
  intro heq
  rw [heq, toList_recursive] at h
  exact h (List.mem_append_right _ List.mem_cons_self)

theorem withoutArguments_ne_recursive {word : String} (h : ' ' ∉ word.toList) :
    (withoutArguments word).text ≠ (recursive name).text := by
  have hdrop {u v : List Char} (hu : ' ' ∉ u) :
    (u ++ ' ' :: v).dropWhile (· != ' ') = ' ' :: v := by
    have hall : ∀ c ∈ u, (c != ' ') = true := by
      intro c hc
      simpa using fun heq : c = ' ' => hu (heq ▸ hc)
    rw [List.dropWhile_append_of_pos hall]
    rfl
  have hwords : " without type arguments".toList = ' ' :: 'w' ::
    "ithout type arguments".toList := by decide
  have hrecursive : "recursive type ".toList = 'r' :: "ecursive type ".toList := by decide
  have htext : (withoutArguments word).text.toList = word.toList ++
    " without type arguments".toList :=
    String.toList_append
  intro heq
  have hlist := congrArg (fun t : String => t.toList.dropWhile (· != ' ')) heq
  simp only [toList_recursive, htext, hwords] at hlist
  rw [hdrop h, hdrop (by decide), hrecursive] at hlist
  simp at hlist

end Obstacle

/-! ### The calls of the resolver -/

namespace Env

def answer (env : Env) (depth : Nat) (call : Call) : Shape :=
  env.resolve depth call.scope call.visiting call.type

variable {env : Env} {depth : Nat} {call called : Call}

theorem parts_subset_of_calls (h : env.Calls call called) :
    (env.answer depth called).parts ⊆ (env.answer (depth + 1) call).parts := by
  intro shape hshape
  cases h with
  | element =>
    simp only [answer, resolve, Shape.mem_parts_array]
    exact .inr hshape
  | @field scope visiting fields f hf =>
    simp only [answer, resolve, Shape.mem_parts_ofFields]
    exact .inr ⟨_, List.mem_map_of_mem hf, hshape⟩
  | named h hgeneric hnew =>
    simpa [answer, resolve, h, hgeneric, hnew] using hshape

def MeetsAgain (env : Env) (call : Call) (name : String) : Prop :=
  call.type = .named none name false ∧ ∃ id decl inner,
    env.lookup call.scope name = .declared id decl inner ∧ decl.generic = false ∧ id ∈ call.visiting

theorem predeclared_of_lookup {scope : Scope} {name : String} {shape : Shape}
    (h : env.lookup scope name = .predeclared shape) : Predeclared env.intWidth name shape := by
  rw [lookup] at h
  split at h
  · cases h
  · split at h
    · cases h
    · split at h
      · cases h
      · split at h <;> cases h
        exact predeclared?_eq_some_iff.mp ‹_›

/-- Where a mark in the answer comes from: from the answer to a call that is made, from a
declaration that is met again, or else it does not tell of recursion. -/
theorem unresolved_of_parts {text : String}
    (h : .unresolved text ∈ (env.answer (depth + 1) call).parts) :
    (∃ called, env.Calls call called ∧ .unresolved text ∈ (env.answer depth called).parts) ∨
    (∃ name, env.MeetsAgain call name) ∨
    (call.type.Spaceless → ∀ name, text ≠ (Obstacle.recursive name).text) := by
  obtain ⟨scope, visiting, type⟩ := call
  have hobstacle {o : Obstacle} (h : .unresolved text ∈ o.shape.parts) : text = o.text := by
    simpa [Obstacle.shape, Shape.parts] using h
  change _ ∈ (env.resolve (depth + 1) scope visiting type).parts at h
  unfold resolve at h
  split at h
  case h_1 => simp [Shape.parts] at h
  case h_2 => simp [Shape.parts] at h
  case h_3 => simp [Shape.parts] at h
  case h_4 length elem =>
    rw [Shape.mem_parts_array] at h
    exact .inl ⟨⟨scope, visiting, elem⟩, .element, h.resolve_left (by simp)⟩
  case h_5 length elem =>
    rw [hobstacle h]
    exact .inr (.inr fun _ name => Obstacle.append_ne_recursive (c := 'a') (by decide) (by decide))
  case h_6 fields =>
    rw [Shape.mem_parts_ofFields] at h
    obtain ⟨_, hmem, hpart⟩ := h.resolve_left (by simp [Shape.ofFields])
    obtain ⟨f, hf, rfl⟩ := List.mem_map.mp hmem
    exact .inl ⟨⟨scope, visiting, f.type⟩, .field hf, hpart⟩
  case h_7 => simp [Shape.parts] at h
  case h_8 package name _ =>
    rw [hobstacle h]
    refine .inr (.inr fun hspaces _ => Obstacle.ne_recursive_of_spaceless ?_)
    have hpackage := hspaces package .package
    have hname := hspaces name .name
    show ' ' ∉ (package ++ "." ++ name).toList
    simpa [String.toList_append] using ⟨hpackage, hname⟩
  case h_9 package name =>
    rw [hobstacle h]
    refine .inr (.inr fun hspaces _ => Obstacle.ne_recursive_of_spaceless ?_)
    have hpackage := hspaces package .package
    have hname := hspaces name .name
    show ' ' ∉ (package ++ "." ++ name ++ "[...]").toList
    simpa [String.toList_append] using ⟨hpackage, hname⟩
  case h_10 name =>
    rw [hobstacle h]
    refine .inr (.inr fun hspaces _ => Obstacle.ne_recursive_of_spaceless ?_)
    show ' ' ∉ (name ++ "[...]").toList
    simpa [String.toList_append] using hspaces name .name
  case h_11 name =>
    cases hlookup : env.lookup scope name with
    | declared id decl inner =>
      rw [hlookup] at h
      simp only at h
      split at h
      · rw [hobstacle h]
        exact .inr (.inr fun hspaces _ => Obstacle.withoutArguments_ne_recursive
          (hspaces name .name))
      · rename_i hgeneric
        have hgeneric : decl.generic = false := by simpa using hgeneric
        split at h
        · rename_i hagain
          exact .inr (.inl ⟨name, rfl, id, decl, inner, hlookup, hgeneric, hagain⟩)
        · rename_i hnew
          exact .inl ⟨⟨inner, id :: visiting, decl.type⟩, .named hlookup hgeneric hnew, h⟩
    | parameter =>
      rw [hlookup] at h
      rw [hobstacle h]
      exact .inr (.inr fun _ name => Obstacle.append_ne_recursive (c := 't') (by decide)
        (by decide))
    | predeclared shape =>
      rw [hlookup] at h
      have hshape := predeclared_of_lookup hlookup
      cases hshape <;> simp [Shape.parts] at h
    | undeclared =>
      rw [hlookup] at h
      rw [hobstacle h]
      exact .inr (.inr fun hspaces _ => Obstacle.ne_recursive_of_spaceless (hspaces name .name))

/-! ### Recursion and cycles -/

variable {root : Scope} {fields : List (FieldDecl WrittenType)}

def OnTrail (env : Env) (root : Scope) (fields : List (FieldDecl WrittenType)) (call : Call) :
    Prop :=
  Scope.Inside root call.scope ∧ ∀ id, env.Uses call.scope call.type id →
    env.Reaches root fields id ∧ ∀ i ∈ call.visiting, Relation.TransGen (env.Holds root) i id

theorem OnTrail.calls (h : env.OnTrail root fields call) (hcalls : env.Calls call called) :
    env.OnTrail root fields called := by
  obtain ⟨hinside, huses⟩ := h
  cases hcalls with
  | element => exact ⟨hinside, fun id hid => huses id (.element hid)⟩
  | field hf => exact ⟨hinside, fun id hid => huses id (.field hf hid)⟩
  | @named scope inner visiting name id decl hlookup hgeneric hnew =>
    obtain ⟨hid, hinner⟩ := identifies_of_lookup hinside hlookup
    obtain ⟨⟨f, hf, first, hfirst, hpath⟩, htrail⟩ :=
      huses id (.named (binds_iff_lookup.mpr hlookup) hgeneric)
    refine ⟨hinner, fun other hother => ?_⟩
    have hedge : env.Holds root id other := ⟨decl, inner, hid, hgeneric, hother⟩
    refine ⟨⟨f, hf, first, hfirst, hpath.tail hedge⟩, fun i hi => ?_⟩
    obtain rfl | hi := List.mem_cons.mp hi
    · exact .single hedge
    · exact (htrail i hi).tail hedge

theorem mem_of_identifies {id : DeclId} {decl : TypeDecl} {inner : Scope}
    (h : env.Identifies root id decl inner) : decl ∈ env.decls ++ root.locals := by
  cases h with
  | package h => exact List.mem_append_left _ (List.mem_of_find?_eq_some h)
  | block h => exact List.mem_append_right _ (h ▸ List.mem_append_right _ List.mem_cons_self)

theorem spaceless_of_calls (hdecls : ∀ d ∈ env.decls ++ root.locals, d.type.Spaceless)
    (hinside : Scope.Inside root call.scope) (h : call.type.Spaceless)
    (hcalls : env.Calls call called) :
    called.type.Spaceless := by
  cases hcalls with
  | element => exact fun word hword => h word (.element hword)
  | field hf => exact fun word hword => h word (.field hf hword)
  | named hlookup hgeneric hnew =>
    exact hdecls _ (mem_of_identifies (identifies_of_lookup hinside hlookup).1)

theorem reachesCycle_of_parts (hdecls : ∀ d ∈ env.decls ++ root.locals, d.type.Spaceless)
    (htrail : env.OnTrail root fields call) (hspaces : call.type.Spaceless) {name : String}
    (h : (Obstacle.recursive name).shape ∈ (env.answer depth call).parts) :
    env.ReachesCycle root fields := by
  induction depth generalizing call with
  | zero =>
    have htext : (Obstacle.recursive name).text = Obstacle.tooDeep.text := by
      simpa [answer, resolve, Obstacle.shape, Shape.parts] using h
    exact absurd htext.symm Obstacle.tooDeep_ne_recursive
  | succ depth ih =>
    obtain ⟨called, hcalls, hmark⟩ | ⟨word, htype, id, decl, inner, hlookup, hgeneric,
      hagain⟩ | hother :=
      unresolved_of_parts h
    · exact ih (htrail.calls hcalls) (spaceless_of_calls hdecls htrail.1 hspaces hcalls) hmark
    · -- The declaration is reached, and reached from itself.
      have huses : env.Uses call.scope call.type id :=
        htype ▸ .named (binds_iff_lookup.mpr hlookup) hgeneric
      obtain ⟨hreached, hcycle⟩ := htrail.2 id huses
      exact ⟨id, hreached, hcycle id hagain⟩
    · exact absurd rfl (hother hspaces name)

inductive Path (env : Env) (root : Scope) : Nat → DeclId → Prop
  | stop {id : DeclId} : Path env root 0 id
  | step {n : Nat} {id other : DeclId} (hedge : env.Holds root id other)
    (h : Path env root n other) :
    Path env root (n + 1) id

theorem path_of_cycle {id : DeclId} (h : Relation.TransGen (env.Holds root) id id) (n : Nat) :
    env.Path root n id := by
  induction n generalizing id with
  | zero => exact .stop
  | succ n ih =>
    obtain ⟨other, hedge, hback⟩ := Relation.TransGen.head'_iff.mp h
    exact .step hedge (ih (Relation.TransGen.tail' hback hedge))

theorem path_of_reflTransGen {id other : DeclId}
    (h : Relation.ReflTransGen (env.Holds root) id other)
    (hpaths : ∀ n, env.Path root n other) (n : Nat) : env.Path root n id := by
  induction h using Relation.ReflTransGen.head_induction_on generalizing n with
  | refl => exact hpaths n
  | head hedge _ ih =>
    cases n with
    | zero => exact .stop
    | succ n => exact .step hedge (ih n)

/-- An answer without marks of recursion and depth has followed every path to its end, each edge
taking it deeper. -/
theorem lt_of_path (call : Call) (hinside : Scope.Inside root call.scope) {id : DeclId}
    (huses : env.Uses call.scope call.type id) {n : Nat} (hpath : env.Path root n id)
    (hdeep : Obstacle.tooDeep.shape ∉ (env.answer depth call).parts)
    (hmark : ∀ name, (Obstacle.recursive name).shape ∉ (env.answer depth call).parts) :
    n < depth := by
  induction depth generalizing call id n with
  | zero => exact absurd (Shape.self_mem_parts _) hdeep
  | succ depth ih =>
    have hcalls {called : Call} {other : DeclId} {m : Nat} (h : env.Calls call called)
        (hinside : Scope.Inside root called.scope) (huses : env.Uses called.scope called.type other)
        (hpath : env.Path root m other) : m < depth :=
      ih called hinside huses hpath (fun hpart => hdeep (parts_subset_of_calls h hpart))
        fun name hpart => hmark name (parts_subset_of_calls h hpart)
    obtain ⟨scope, visiting, type⟩ := call
    cases huses with
    | element h => exact Nat.lt_succ_of_lt (hcalls .element hinside h hpath)
    | field hf h => exact Nat.lt_succ_of_lt (hcalls (.field hf) hinside h hpath)
    | @named name _ decl inner h hgeneric =>
      have hlookup := binds_iff_lookup.mp h
      have hnew : id ∉ visiting := by
        intro hmem
        refine hmark name ?_
        simp only [answer, resolve, hlookup, hgeneric, hmem, if_true, Bool.false_eq_true, if_false]
        exact Shape.self_mem_parts _
      obtain ⟨hid, hinner⟩ := identifies_of_lookup hinside hlookup
      cases hpath with
      | stop => exact Nat.succ_pos depth
      | step hedge hrest =>
        obtain ⟨decl', inner', hid', -, huses⟩ := hedge
        obtain ⟨rfl, rfl⟩ := hid.unique hid'
        exact Nat.succ_lt_succ (hcalls (.named hlookup hgeneric hnew) hinner huses hrest)

/-! ### The declarations that the resolver is inside of -/

def declIds (env : Env) (root : Scope) : List DeclId :=
  (env.decls.map (·.name)).dedup.map .package ++ (List.range root.locals.length).map .block

theorem mem_declIds_of_identifies {id : DeclId} {decl : TypeDecl} {inner : Scope}
    (h : env.Identifies root id decl inner) : id ∈ env.declIds root := by
  cases h with
  | @package name _ h =>
    have hname : decl.name = name := by simpa using List.find?_some h
    have hmem : name ∈ env.decls.map (·.name) :=
      hname ▸ List.mem_map_of_mem (List.mem_of_find?_eq_some h)
    exact List.mem_append_left _ (List.mem_map_of_mem (List.mem_dedup.mpr hmem))
  | @block newer older _ h =>
    have hlength := congrArg List.length h
    simp only [List.length_append, List.length_cons] at hlength
    exact List.mem_append_right _ (List.mem_map_of_mem (List.mem_range.mpr (by omega)))

def InsideOnce (env : Env) (root : Scope) (call : Call) : Prop :=
  Scope.Inside root call.scope ∧ call.visiting.Nodup ∧ call.visiting ⊆ env.declIds root

theorem InsideOnce.calls (h : env.InsideOnce root call) (hcalls : env.Calls call called) :
    env.InsideOnce root called := by
  cases hcalls with
  | element => exact h
  | field => exact h
  | named hlookup _ hnew =>
    obtain ⟨hinside, hnodup, hsubset⟩ := h
    obtain ⟨hid, hinner⟩ := identifies_of_lookup hinside hlookup
    exact ⟨hinner, List.nodup_cons.mpr ⟨hnew, hnodup⟩,
      List.cons_subset.mpr ⟨mem_declIds_of_identifies hid, hsubset⟩⟩

def visitsOnce (env : Env) (root : Scope) (w : Walk) : Bool :=
  w.visiting.Nodup ∧
    w.visiting.length ≤ (env.decls.map (·.name)).dedup.length + root.locals.length

theorem InsideOnce.visitsOnce {type : WrittenType} {scope : Scope} {w : Walk}
    (h : env.InsideOnce root ⟨scope, w.visiting, type⟩) : env.visitsOnce root w = true := by
  obtain ⟨-, hnodup, hsubset⟩ := h
  have hlength := (hnodup.subperm hsubset).length_le
  simpa [Env.visitsOnce, declIds] using ⟨hnodup, by simpa [declIds] using hlength⟩

/-- Recursion is found exactly. Unless the resolver gives up for depth, and if no name holds a
space, the result holds a mark of recursion exactly if a cycle of declarations that hold one another
by value is reached from the fields. Watching that no declaration is visited twice, so no more than
there are, does not break off the walk through the fields: it ends as it does unwatched. -/
theorem resolveStruct_recursive_iff (env : Env) (scope : Scope)
    (fields : List (FieldDecl WrittenType)) :
    ((∀ f ∈ fields, f.type.Spaceless) → (∀ d ∈ env.decls ++ scope.locals, d.type.Spaceless) →
      Obstacle.tooDeep.shape ∉ (env.resolveStruct scope fields).parts →
      ((∃ name, (Obstacle.recursive name).shape ∈ (env.resolveStruct scope fields).parts) ↔
        env.ReachesCycle scope fields)) ∧
    ∀ fuel, depthLimit < fuel →
      (walkFields (env.walk fuel scope) fields).run .start =
        some (env.resolveStruct scope fields, .start) ∧
      (walkFields (env.walkWhile (env.visitsOnce scope) fuel scope) fields).run .start =
        some (env.resolveStruct scope fields, .start) := by
  have hroot : Scope.Inside scope scope := .inr ⟨rfl, List.suffix_rfl⟩
  have hparts {o : Obstacle} : o.shape ∈ (env.resolveStruct scope fields).parts ↔
      ∃ f ∈ fields, o.shape ∈ (env.answer depthLimit ⟨scope, [], f.type⟩).parts := by
    rw [resolveStruct, Shape.mem_parts_ofFields]
    simp [Obstacle.shape, Shape.ofFields, answer]
  refine ⟨fun hspaces hdecls hdeep => ⟨?_, ?_⟩, fun fuel hfuel => ⟨?_, ?_⟩⟩
  · intro h
    obtain ⟨name, hname⟩ := h
    obtain ⟨f, hf, hmark⟩ := hparts.mp hname
    have htrail : env.OnTrail scope fields ⟨scope, [], f.type⟩ :=
      ⟨hroot, fun id hid => ⟨⟨f, hf, id, hid, .refl⟩, by simp⟩⟩
    exact reachesCycle_of_parts hdecls htrail (hspaces f hf) hmark
  · intro h
    obtain ⟨id, ⟨f, hf, first, hfirst, hpath⟩, hcycle⟩ := h
    by_contra hnone
    have hbound : depthLimit < depthLimit :=
      lt_of_path ⟨scope, [], f.type⟩ hroot hfirst
        (path_of_reflTransGen hpath (path_of_cycle hcycle) depthLimit)
        (fun hpart => hdeep (hparts.mpr ⟨f, hf, hpart⟩))
        fun name hpart => hnone ⟨name, hparts.mpr ⟨f, hf, hpart⟩⟩
    exact Nat.lt_irrefl _ hbound
  · exact run_walkFields (env.restores_walk hfuel) (Nat.zero_add _) fun _ _ => trivial
  · have honce : env.Restores (env.InsideOnce scope) depthLimit
        (env.walkWhile (env.visitsOnce scope) fuel) :=
      restores_walkWhile hfuel (fun h hcalls => h.calls hcalls) fun h => h.visitsOnce
    exact run_walkFields honce (Nat.zero_add _) fun f _ =>
      ⟨hroot, List.nodup_nil, List.nil_subset _⟩

def loopEnv : Env :=
  ⟨[⟨"C", false, .reference⟩, ⟨"B", false, .array (.known 0) (.named none "A" false)⟩,
    ⟨"A", false, .struct [⟨"b", .named none "B" false⟩]⟩], .w64⟩

def loopScope : Scope := ⟨[], [⟨"A", false, .named none "C" false⟩]⟩

def loopFields : List (FieldDecl WrittenType) :=
  [⟨"x", .named none "A" false⟩, ⟨"y", .named none "B" false⟩]

/-- The `A` of the block holds no other type, and the `B` of the package holds the `A` of the
package. A walk that is inside of `A` twice is broken off at once. -/
theorem resolveStruct_recursive_iff_of_loop :
    loopEnv.resolveStruct loopScope loopFields = .struct [⟨"x", .pointer, 0⟩,
      ⟨"y", .array (.struct [⟨"b", (Obstacle.recursive "B").shape, 0⟩]) 0, 1⟩] ∧
    Obstacle.tooDeep.shape ∉ (loopEnv.resolveStruct loopScope loopFields).parts ∧
    loopEnv.ReachesCycle loopScope loopFields ∧
    (depthLimit < 257 ∧
      (walkFields (loopEnv.walkWhile (loopEnv.visitsOnce loopScope) 257 loopScope) loopFields).run
        .start = some (loopEnv.resolveStruct loopScope loopFields, .start)) ∧
    (loopEnv.walkWhile (loopEnv.visitsOnce loopScope) 257 loopScope .slice).run
      ⟨[.package "A", .package "A"], 0⟩ = none := by
  have hresult : loopEnv.resolveStruct loopScope loopFields = .struct [⟨"x", .pointer, 0⟩,
      ⟨"y", .array (.struct [⟨"b", (Obstacle.recursive "B").shape, 0⟩]) 0, 1⟩] := rfl
  have hdeep : Obstacle.tooDeep.shape ∉ (loopEnv.resolveStruct loopScope loopFields).parts := by
    simpa [hresult, Shape.parts, Shape.partsOfEach, Shape.partsOfField, Obstacle.shape] using
      Obstacle.tooDeep_ne_recursive
  have hmark : (Obstacle.recursive "B").shape ∈
    (loopEnv.resolveStruct loopScope loopFields).parts := by
    simp [hresult, Shape.parts, Shape.partsOfEach, Shape.partsOfField, Obstacle.shape]
  have hnamed {name : String} (h : ' ' ∉ name.toList) :
    (WrittenType.named none name false).Spaceless := by
    intro word hword
    cases hword
    exact h
  have hfields : ∀ f ∈ loopFields, f.type.Spaceless := by
    simpa [loopFields] using ⟨hnamed (by decide), hnamed (by decide)⟩
  have hdecls : ∀ d ∈ loopEnv.decls ++ loopScope.locals, d.type.Spaceless := by
    simp only [loopEnv, loopScope, List.cons_append, List.nil_append, List.forall_mem_cons]
    refine ⟨?_, ?_, ?_, hnamed (by decide), by simp⟩
    · intro word hword
      cases hword
    · intro word hword
      cases hword with
      | element h => exact hnamed (by decide) word h
    · intro word hword
      cases hword with
      | field hf h =>
        obtain rfl := List.mem_singleton.mp hf
        exact hnamed (by decide) word h
  obtain ⟨hexact, hwalk⟩ := resolveStruct_recursive_iff loopEnv loopScope loopFields
  exact ⟨hresult, hdeep, (hexact hfields hdecls hdeep).mp ⟨"B", hmark⟩,
    ⟨by decide, (hwalk 257 (by decide)).2⟩, rfl⟩

end Env

end FieldOrder.Source
