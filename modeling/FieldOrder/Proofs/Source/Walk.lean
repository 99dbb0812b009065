import FieldOrder.Source.Resolution
import Mathlib.Logic.Equiv.Defs

/-! Resolving with one walk for all. A resolver may keep the declarations that it is inside of, and
how deep it is, in a state that the fields of a struct share and that each type changes on its way
in. Nothing of this is left behind on any way out, so the fields of a struct are resolved as if each
of them stood alone. -/
namespace FieldOrder

def Shape.fieldTypes : Shape → List Shape
  | .struct fields => fields.map (·.type)
  | _ => []

theorem Shape.fieldTypes_ofFields (fields : List (String × Shape)) :
    (Shape.ofFields fields).fieldTypes = fields.map (·.2) := by
  have hzip : fields.zipIdx.map (fun p => p.1.2) = (fields.zipIdx.map Prod.fst).map (·.2) := by
    rw [List.map_map]
    rfl
  simp only [ofFields, fieldTypes, List.map_map]
  exact hzip.trans (by rw [List.zipIdx_map_fst])

namespace Source

/-- Where a resolver is: the declarations that it is inside of, the newest first, and how deep it
is. -/
structure Walk where
  visiting : List DeclId
  depth : Nat
deriving DecidableEq, Repr

namespace Walk

def start : Walk := ⟨[], 0⟩

def descend (w : Walk) : Walk := { w with depth := w.depth + 1 }

def ascend (w : Walk) : Walk := { w with depth := w.depth - 1 }

def enter (id : DeclId) (w : Walk) : Walk := { w with visiting := id :: w.visiting }

def leave (w : Walk) : Walk := { w with visiting := w.visiting.tail }

@[simp] theorem visiting_descend (w : Walk) : w.descend.visiting = w.visiting := rfl

@[simp] theorem ascend_descend (w : Walk) : w.descend.ascend = w := rfl

@[simp] theorem visiting_enter (id : DeclId) (w : Walk) :
    (w.enter id).visiting = id :: w.visiting := rfl

@[simp] theorem leave_enter (id : DeclId) (w : Walk) : (w.enter id).leave = w := rfl

end Walk

abbrev Walking := StateT Walk Option

def walkFields (walk : WrittenType → Walking Shape) (fields : List (FieldDecl WrittenType)) :
    Walking Shape := do
  let shapes ← fields.mapM fun f => (f.name, ·) <$> walk f.type
  return .ofFields shapes

structure Call where
  scope : Scope
  visiting : List DeclId
  type : WrittenType

namespace Env

def walkName (env : Env) (walk : Scope → WrittenType → Walking Shape) (scope : Scope)
    (name : String) :
    Walking Shape := do
  match env.lookup scope name with
  | .declared id decl inner =>
    if decl.generic then
      return (Obstacle.withoutArguments name).shape
    if id ∈ (← get).visiting then
      return (Obstacle.recursive name).shape
    modify (Walk.enter id)
    let shape ← walk inner decl.type
    modify Walk.leave
    return shape
  | .parameter => return (Obstacle.typeParameter name).shape
  | .predeclared shape => return shape
  | .undeclared => return (Obstacle.undeclared name).shape

/-- Resolves a type, given how the types inside of it are resolved. Each way out but the first goes
back up. -/
def walkStep (env : Env) (walk : Scope → WrittenType → Walking Shape) (scope : Scope)
    (type : WrittenType) : Walking Shape := do
  if (← get).depth = depthLimit then
    return Obstacle.tooDeep.shape
  modify Walk.descend
  let shape ← match type with
    | .reference => pure .pointer
    | .slice => pure .slice
    | .interface => pure .interface
    | .array (.known n) elem => do
      let shape ← walk scope elem
      pure (.array shape n)
    | .array (.unknown text) _ => pure (Obstacle.unknownLength text).shape
    | .struct fields => walkFields (walk scope) fields
    | .named (some "unsafe") "Pointer" false => pure .pointer
    | .named (some package) name false => pure (Obstacle.foreign package name).shape
    | .named (some package) name true =>
      pure (Obstacle.withArguments (package ++ "." ++ name)).shape
    | .named none name true => pure (Obstacle.withArguments name).shape
    | .named none name false => env.walkName walk scope name
  modify Walk.ascend
  return shape

/-- Resolves a type as long as every call finds the walk in a state that fits; from the first that
does not there is no result. The walk alone says how deep it is: `fuel` only bounds how many calls
are nested, and there is no result where it is used up. -/
def walkWhile (env : Env) (fits : Walk → Bool) : (fuel : Nat) → Scope → WrittenType → Walking Shape
  | 0, _, _ => failure
  | fuel + 1, scope, type => do
    if fits (← get) then env.walkStep (env.walkWhile fits fuel) scope type else failure

def walk (env : Env) : (fuel : Nat) → Scope → WrittenType → Walking Shape :=
  env.walkWhile fun _ => true

theorem run_mapM_of_keeps {σ α β : Type} {f : α → StateT σ Option β} {g : α → β} {s : σ}
    {as : List α}
    (h : ∀ a ∈ as, (f a).run s = some (g a, s)) : (as.mapM f).run s = some (as.map g, s) := by
  induction as with
  | nil => rfl
  | cons a as ih =>
    obtain ⟨ha, has⟩ := List.forall_mem_cons.mp h
    simp [List.mapM_cons, ha, ih has]

inductive Calls (env : Env) : Call → Call → Prop
  | element {scope : Scope} {visiting : List DeclId} {length : Nat} {elem : WrittenType} :
    Calls env ⟨scope, visiting, .array (.known length) elem⟩ ⟨scope, visiting, elem⟩
  | field {scope : Scope} {visiting : List DeclId} {fields : List (FieldDecl WrittenType)}
    {f : FieldDecl WrittenType} (hf : f ∈ fields) :
    Calls env ⟨scope, visiting, .struct fields⟩ ⟨scope, visiting, f.type⟩
  | named {scope inner : Scope} {visiting : List DeclId} {name : String} {id : DeclId}
    {decl : TypeDecl} (h : env.lookup scope name = .declared id decl inner)
    (hgeneric : decl.generic = false) (hnew : id ∉ visiting) :
    Calls env ⟨scope, visiting, .named none name false⟩ ⟨inner, id :: visiting, decl.type⟩

/-- From a walk that has the given depth left, these calls come to an end with the shape that the
walk's place calls for, and with the walk as it was. -/
def Restores (env : Env) (asked : Call → Prop) (depth : Nat)
    (walk : Scope → WrittenType → Walking Shape) : Prop :=
  ∀ (scope : Scope) (type : WrittenType) (w : Walk), w.depth + depth = depthLimit →
    asked ⟨scope, w.visiting, type⟩ →
    (walk scope type).run w = some (env.resolve depth scope w.visiting type, w)

variable {env : Env} {asked : Call → Prop} {fuel depth : Nat} {w : Walk}
  {walk : Scope → WrittenType → Walking Shape}

theorem run_walkFields (h : env.Restores asked depth walk) (hw : w.depth + depth = depthLimit)
    {scope : Scope} {fields : List (FieldDecl WrittenType)}
    (hasked : ∀ f ∈ fields, asked ⟨scope, w.visiting, f.type⟩) :
    (walkFields (walk scope) fields).run w =
      some (.ofFields (fields.map fun f => (f.name, env.resolve depth scope w.visiting f.type)),
        w) := by
  have hfield : ∀ f ∈ fields, ((f.name, ·) <$> walk scope f.type).run w =
      some ((f.name, env.resolve depth scope w.visiting f.type), w) := by
    intro f hf
    simp [h scope f.type w hw (hasked f hf)]
  rw [walkFields, StateT.run_bind, run_mapM_of_keeps hfield]
  rfl

theorem run_walkName (h : env.Restores asked depth walk) (hw : w.depth + depth = depthLimit)
    {scope : Scope} {name : String}
    (hasked : ∀ called, env.Calls ⟨scope, w.visiting, .named none name false⟩ called →
      asked called) :
    (env.walkName walk scope name).run w =
      some (env.resolve (depth + 1) scope w.visiting (.named none name false), w) := by
  rw [walkName, resolve]
  cases hlookup : env.lookup scope name with
  | declared id decl inner =>
    by_cases hgeneric : decl.generic
    · simp [hgeneric]
    · by_cases hvisiting : id ∈ w.visiting
      · simp [hgeneric, hvisiting]
      · have hcall := hasked _ (.named hlookup (by simpa using hgeneric) hvisiting)
        have hinner := h inner decl.type (w.enter id) hw hcall
        simp [hgeneric, hvisiting, hinner]
  | parameter | predeclared | undeclared => rfl

theorem Restores.walkStep (h : env.Restores asked depth walk)
    (hasked : ∀ {call called}, asked call → env.Calls call called → asked called) :
    env.Restores asked (depth + 1) (env.walkStep walk) := by
  intro scope type w hw hcall
  have hlimit : w.depth ≠ depthLimit := by omega
  have hdescend : w.descend.depth + depth = depthLimit := by
    show w.depth + 1 + depth = depthLimit
    omega
  rw [Env.walkStep]
  unfold resolve
  split
  case h_4 n elem =>
    have helem := h scope elem w.descend hdescend (hasked hcall .element)
    simp [hlimit, helem]
  case h_6 fields =>
    have hfields := run_walkFields h hdescend fun f hf => hasked hcall (.field hf)
    simp [hlimit, hfields]
  case h_11 name =>
    have hname := run_walkName h hdescend fun called => hasked hcall
    show _ = some (env.resolve (depth + 1) scope w.visiting (.named none name false), w)
    simp [hlimit, hname]
  all_goals simp [hlimit]

theorem restores_walkWhile {fits : Walk → Bool} (hfuel : depth < fuel)
    (hasked : ∀ {call called}, asked call → env.Calls call called → asked called)
    (hfits : ∀ {scope type w}, asked ⟨scope, w.visiting, type⟩ → fits w = true) :
    env.Restores asked depth (env.walkWhile fits fuel) := by
  induction depth generalizing fuel with
  | zero =>
    obtain ⟨fuel, rfl⟩ : ∃ n, fuel = n + 1 := ⟨fuel - 1, by omega⟩
    intro scope type w hw hcall
    have hlimit : w.depth = depthLimit := hw
    simp [walkWhile, hfits hcall, Env.walkStep, hlimit, resolve]
  | succ depth ih =>
    obtain ⟨fuel, rfl⟩ : ∃ n, fuel = n + 1 := ⟨fuel - 1, by omega⟩
    intro scope type w hw hcall
    have hstep := (ih (Nat.lt_of_succ_lt_succ hfuel)).walkStep hasked scope type w hw hcall
    simp [walkWhile, hfits hcall, hstep]

theorem restores_walk (env : Env) (hfuel : depth < fuel) :
    env.Restores (fun _ => True) depth (env.walk fuel) :=
  restores_walkWhile hfuel (fun _ _ => trivial) fun _ => rfl

theorem fieldTypes_resolveStruct (env : Env) (scope : Scope)
    (fields : List (FieldDecl WrittenType)) :
    (env.resolveStruct scope fields).fieldTypes =
      fields.map fun f => env.resolve depthLimit scope [] f.type := by
  rw [resolveStruct, Shape.fieldTypes_ofFields, List.map_map]
  rfl

/-- Siblings are resolved independently of one another. A walk that is no deeper than it may be is
found again as it was, whatever the type and whichever the way out, and with the shape for the place
that it stands for; resolving the fields of a struct is walking from the start. So the types of two
lists of fields together are those of the one and then those of the other, and the types of fields
in another order are the same types in that order. -/
theorem resolveStruct_siblings (env : Env) (scope : Scope) :
    (∀ (type : WrittenType) (w : Walk) (fuel : Nat), w.depth ≤ depthLimit →
      depthLimit - w.depth < fuel → (env.walk fuel scope type).run w =
        some (env.resolve (depthLimit - w.depth) scope w.visiting type, w)) ∧
    (∀ fields fuel, depthLimit < fuel → (walkFields (env.walk fuel scope) fields).run .start =
      some (env.resolveStruct scope fields, .start)) ∧
    (∀ xs ys, (env.resolveStruct scope (xs ++ ys)).fieldTypes =
      (env.resolveStruct scope xs).fieldTypes ++ (env.resolveStruct scope ys).fieldTypes) ∧
    ∀ (n : Nat) (fields : Fin n → FieldDecl WrittenType) (order : Equiv.Perm (Fin n)),
      ∃ types : Fin n → Shape,
        (env.resolveStruct scope (List.ofFn fields)).fieldTypes = List.ofFn types ∧
        (env.resolveStruct scope (List.ofFn (fields ∘ order))).fieldTypes =
          List.ofFn (types ∘ order) := by
  refine ⟨?_, ?_, ?_, ?_⟩
  · intro type w fuel hw hfuel
    exact env.restores_walk hfuel scope type w (Nat.add_sub_cancel' hw) trivial
  · intro fields fuel hfuel
    exact run_walkFields (env.restores_walk hfuel) (Nat.zero_add _) fun _ _ => trivial
  · intro xs ys
    simp only [fieldTypes_resolveStruct, List.map_append]
  · intro n fields order
    refine ⟨fun i => env.resolve depthLimit scope [] (fields i).type, ?_, ?_⟩
    · rw [fieldTypes_resolveStruct, List.map_ofFn]
      rfl
    · rw [fieldTypes_resolveStruct, List.map_ofFn]
      rfl

def exitsEnv : Env :=
  ⟨[⟨"Loop", false, .struct [⟨"self", .named none "Loop" false⟩]⟩, ⟨"Pair", true, .struct []⟩,
    ⟨"Outer", false, .reference⟩], .w64⟩

/-- Fields that are left in all ways: in the midst of a recursive type and in front of one, at a
generic type, at the depth limit, and at the end of a type. -/
def exitsType : WrittenType :=
  .struct [⟨"loop", .named none "Loop" false⟩, ⟨"outer", .named none "Outer" false⟩,
    ⟨"pair", .named none "Pair" false⟩,
      ⟨"deep", .array (.known 2) (.array (.known 3) (.array (.known 4) .slice))⟩,
    ⟨"again", .named none "Loop" false⟩]

def exitsWalk : Walk := ⟨[.package "Outer"], 252⟩

theorem resolveStruct_siblings_of_exits :
    exitsWalk.depth ≤ depthLimit ∧ depthLimit - exitsWalk.depth < 5 ∧
    (exitsEnv.walk 5 .package exitsType).run exitsWalk =
      some (.struct [⟨"loop", .struct [⟨"self", .unresolved "invalid recursive type Loop", 0⟩], 0⟩,
        ⟨"outer", .unresolved "invalid recursive type Outer", 1⟩,
        ⟨"pair", .unresolved "Pair without type arguments", 2⟩,
        ⟨"deep", .array (.array (.array (.unresolved "type nested too deeply") 4) 3) 2, 3⟩,
        ⟨"again", .struct [⟨"self", .unresolved "invalid recursive type Loop", 0⟩], 4⟩],
          exitsWalk) :=
  ⟨by decide, by decide, (resolveStruct_siblings exitsEnv .package).1 exitsType exitsWalk 5
    (by decide) (by decide)⟩

end Env

end Source

end FieldOrder
