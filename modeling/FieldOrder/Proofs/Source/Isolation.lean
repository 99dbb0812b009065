import FieldOrder.Proofs.Layout.Placement
import FieldOrder.Proofs.Shape
import FieldOrder.Source.Package
import Mathlib.Data.List.Flatten
import Mathlib.Data.List.Forall2
import Mathlib.Data.List.Nodup
import Mathlib.Data.List.Perm.Basic

/-! What the files of a package owe to each other. A struct is resolved among the declarations of
its package. If no package declares a name twice, these are the same in every order of the files,
and files of other packages do not add to them. So each file has its own block of candidates, which
follows the file wherever it stands. -/
namespace FieldOrder

section FirstError

variable {ε α β : Type} {f : α → Except ε β} {a : α} {as : List α} {e : ε}

theorem mapM_eq_ok {bs : List β} :
    as.mapM f = .ok bs ↔ List.Forall₂ (fun a b => f a = .ok b) as bs := by
  induction as generalizing bs with
  | nil => simp [pure, Except.pure, eq_comm]
  | cons a as ih =>
    simp only [List.mapM_cons, bind_eq_ok, ih, List.forall₂_cons_left_iff, pure, Except.pure,
      Except.ok.injEq]
    constructor
    · rintro ⟨b, hb, bs, hbs, rfl⟩
      exact ⟨b, bs, hb, hbs, rfl⟩
    · rintro ⟨b, bs, hb, hbs, rfl⟩
      exact ⟨b, hb, bs, hbs, rfl⟩

theorem exists_mapM_eq_ok {P : β → Prop} :
    (∃ bs, as.mapM f = .ok bs ∧ ∀ b ∈ bs, P b) ↔ ∀ a ∈ as, ∃ b, f a = .ok b ∧ P b := by
  induction as with
  | nil => simp [pure, Except.pure]
  | cons a as ih =>
    rw [List.forall_mem_cons, ← ih]
    simp only [List.mapM_cons, bind_eq_ok, pure, Except.pure, Except.ok.injEq]
    constructor
    · rintro ⟨_, ⟨b, hb, bs, hbs, rfl⟩, hall⟩
      obtain ⟨hP, hall⟩ := List.forall_mem_cons.mp hall
      exact ⟨⟨b, hb, hP⟩, bs, hbs, hall⟩
    · rintro ⟨⟨b, hb, hP⟩, bs, hbs, hall⟩
      exact ⟨b :: bs, ⟨b, hb, bs, hbs, rfl⟩, List.forall_mem_cons.mpr ⟨hP, hall⟩⟩

theorem exists_mapM_iff : (∃ bs, as.mapM f = .ok bs) ↔ ∀ a ∈ as, ∃ b, f a = .ok b := by
  simpa using exists_mapM_eq_ok (f := f) (P := fun _ => True)

theorem mapM_map_right {γ : Type} (g : β → γ) (as : List α) :
    as.mapM (fun a => (f a).map g) = (as.mapM f).map (·.map g) := by
  induction as with
  | nil => rfl
  | cons a as ih =>
    rw [List.mapM_cons, List.mapM_cons, ih]
    cases f a with
    | error e => rfl
    | ok b => cases as.mapM f <;> rfl

theorem mapM_cons_eq_error : (a :: as).mapM f = .error e ↔
    f a = .error e ∨ (∃ b, f a = .ok b) ∧ as.mapM f = .error e := by
  simp [List.mapM_cons, bind_eq_error, pure, Except.pure]

theorem mapM_eq_error : as.mapM f = .error e ↔ ∃ before a after, as = before ++ a :: after ∧
    (∀ x ∈ before, ∃ b, f x = .ok b) ∧ f a = .error e := by
  induction as with
  | nil => simp [pure, Except.pure]
  | cons a as ih =>
    rw [mapM_cons_eq_error, ih]
    constructor
    · rintro (ha | ⟨ha, before, x, after, rfl, hbefore, hx⟩)
      · exact ⟨[], a, as, rfl, by simp, ha⟩
      · exact ⟨a :: before, x, after, rfl, List.forall_mem_cons.mpr ⟨ha, hbefore⟩, hx⟩
    · rintro ⟨before, x, after, heq, hbefore, hx⟩
      cases before with
      | nil =>
        cases heq
        exact .inl hx
      | cons y before =>
        cases heq
        obtain ⟨ha, hbefore⟩ := List.forall_mem_cons.mp hbefore
        exact .inr ⟨ha, before, x, after, rfl, hbefore, hx⟩

end FirstError

namespace Source

namespace Env

structure Agrees (env other : Env) : Prop where
  intWidth : env.intWidth = other.intWidth
  find? (name : String) : env.decls.find? (·.name == name) = other.decls.find? (·.name == name)

variable {env other : Env}

theorem Agrees.lookup (h : env.Agrees other) (scope : Scope) (name : String) :
    env.lookup scope name = other.lookup scope name := by
  have hpredeclared : env.predeclared? name = other.predeclared? name := by
    unfold predeclared?
    rw [h.intWidth]
  simp only [Env.lookup, h.find? name, hpredeclared]

theorem Agrees.resolve (h : env.Agrees other) (depth : Nat) (scope : Scope) (visiting : List DeclId)
    (type : WrittenType) :
    env.resolve depth scope visiting type = other.resolve depth scope visiting type := by
  induction depth generalizing scope visiting type with
  | zero => rfl
  | succ depth ih => simp only [Env.resolve, ih, h.lookup]

theorem Agrees.resolveStruct (h : env.Agrees other) (scope : Scope)
    (fields : List (FieldDecl WrittenType)) :
    env.resolveStruct scope fields = other.resolveStruct scope fields := by
  simp only [Env.resolveStruct, h.resolve]

end Env

theorem SourceFile.path_of_read {f : SourceFile} {file : FileOutline} (h : f.read = .ok file) :
    file.path = f.path := by
  unfold read at h
  split at h
  · cases h
    rfl
  · cases h

def SourceFile.package? (f : SourceFile) : Option String :=
  match f.read with
  | .ok file => some file.outline.package
  | .error _ => none

theorem SourceFile.package?_of_read {f : SourceFile} {file : FileOutline} (h : f.read = .ok file) :
    f.package? = some file.outline.package := by
  simp [package?, h]

namespace Package

/-- Each declaration of the files by its package and its name. -/
def declared (files : List FileOutline) : List (String × String) :=
  files.flatMap fun file => file.outline.decls.map fun decl => (file.outline.package, decl.name)

def DeclaredOnce (files : List FileOutline) : Prop := (declared files).Nodup

instance (files : List FileOutline) : Decidable (DeclaredOnce files) :=
  inferInstanceAs (Decidable (declared files).Nodup)

variable {target : Target} {files other : List FileOutline} {file : FileOutline}

theorem DeclaredOnce.perm (h : DeclaredOnce files) (hperm : other.Perm files) :
    DeclaredOnce other :=
  (hperm.flatMap_right _).nodup_iff.mpr h

theorem DeclaredOnce.nodup_decls (h : DeclaredOnce files) (package : String) :
    ((decls files package).map (·.name)).Nodup := by
  let own := files.filter (·.outline.package == package)
  have hsublist : (declared own).Sublist (declared files) := List.filter_sublist.flatMap _
  have hown : declared own =
      ((own.flatMap (·.outline.decls)).map (·.name)).map (Prod.mk package) := by
    rw [List.map_map, List.map_flatMap]
    refine List.flatMap_congr fun file hfile => ?_
    rw [beq_iff_eq.mp (List.mem_filter.mp hfile).2]
    rfl
  have hnodup := h.sublist hsublist
  rw [hown] at hnodup
  rw [decls, List.map_reverse, List.nodup_reverse]
  exact hnodup.of_map

theorem find?_eq_some_iff_mem {decls : List TypeDecl} (h : (decls.map (·.name)).Nodup)
    {name : String} {decl : TypeDecl} :
    decls.find? (·.name == name) = some decl ↔ decl ∈ decls ∧ decl.name = name := by
  induction decls with
  | nil => simp
  | cons first rest ih =>
    rw [List.map_cons, List.nodup_cons] at h
    obtain ⟨hfirst, hrest⟩ := h
    by_cases hname : first.name = name
    · rw [List.find?_cons_of_pos (by simpa using hname), Option.some.injEq]
      constructor
      · rintro rfl
        exact ⟨List.mem_cons_self, hname⟩
      · rintro ⟨hmem, heq⟩
        obtain rfl | hmem := List.mem_cons.mp hmem
        · rfl
        · exact absurd (List.mem_map.mpr ⟨decl, hmem, heq.trans hname.symm⟩) hfirst
    · rw [List.find?_cons_of_neg (by simpa using hname), ih hrest, List.mem_cons]
      constructor
      · rintro ⟨hmem, heq⟩
        exact ⟨.inr hmem, heq⟩
      · rintro ⟨rfl | hmem, heq⟩
        · exact absurd heq hname
        · exact ⟨hmem, heq⟩

theorem fileCandidates_perm (h : DeclaredOnce files) (hperm : other.Perm files) :
    fileCandidates target other = fileCandidates target files := by
  funext file
  let package := file.outline.package
  have hdecls : (decls other package).Perm (decls files package) := by
    have hown := (hperm.filter (·.outline.package == package)).flatMap_right (·.outline.decls)
    exact (List.reverse_perm _).trans (hown.trans (List.reverse_perm _).symm)
  have hagrees : Env.Agrees ⟨decls other package, target.intWidth⟩
      ⟨decls files package, target.intWidth⟩ := by
    refine ⟨rfl, fun name => Option.ext fun decl => ?_⟩
    -- The first declaration of a name depends on the order, unless it is the only one.
    rw [find?_eq_some_iff_mem ((h.perm hperm).nodup_decls package),
      find?_eq_some_iff_mem (h.nodup_decls package), hdecls.mem_iff]
  simp only [fileCandidates, package, hagrees.resolveStruct]

theorem fileCandidates_filter (file : FileOutline) :
    fileCandidates target (files.filter (·.outline.package == file.outline.package)) file =
      fileCandidates target files file := by
  simp only [fileCandidates, decls, List.filter_filter, Bool.and_self]

def block (target : Target) (files : List FileOutline) (f : SourceFile) : List (Candidate Place) :=
  match f.read with
  | .ok file => fileCandidates target files file
  | .error _ => []

theorem block_perm (h : DeclaredOnce files) (hperm : other.Perm files) :
    block target other = block target files := by
  funext f
  simp only [block, fileCandidates_perm h hperm]

theorem block_filter {f : SourceFile} {package : String} (h : f.package? = some package) :
    block target (files.filter (·.outline.package == package)) f = block target files f := by
  unfold SourceFile.package? at h
  unfold block
  cases hread : f.read with
  | error e => rfl
  | ok file =>
    rw [hread] at h
    cases h
    exact fileCandidates_filter file

abbrev ReadAs (fs : List SourceFile) (files : List FileOutline) : Prop :=
  List.Forall₂ (fun f file => f.read = .ok file) fs files

variable {fs gs : List SourceFile}

theorem ReadAs.candidates_eq (h : ReadAs fs files) :
    candidates target fs = .ok (fs.flatMap (block target files)) := by
  have hblocks {all : List FileOutline} :
      files.flatMap (fileCandidates target all) = fs.flatMap (block target all) := by
    induction h with
    | nil => rfl
    | cons hread _ ih => simp only [List.flatMap_cons, ih, block, hread]
  rw [candidates, mapM_eq_ok.mpr h, ← hblocks]
  rfl

theorem ReadAs.perm (h : ReadAs fs files) (hperm : gs.Perm fs) :
    ∃ other, ReadAs gs other ∧ other.Perm files :=
  List.perm_comp_forall₂ hperm h

theorem ReadAs.filter (h : ReadAs fs files) (package : String) :
    ReadAs (fs.filter (·.package? == some package))
      (files.filter (·.outline.package == package)) := by
  induction h with
  | nil => exact .nil
  | @cons f file _ _ hread _ ih =>
    have hpackage := SourceFile.package?_of_read hread
    by_cases heq : file.outline.package = package
    · simpa [hpackage, heq, hread] using ih
    · simpa [hpackage, heq] using ih

/-- The candidates of files do not depend on their order or on files of other packages, as long as
no package declares a name twice: each file has its block, one candidate for each of its struct
literals, and the blocks stand in the order of the files. If a file cannot be read, then there are
no candidates, and the error is the one of the first such file. -/
theorem candidates_of_files (target : Target) (fs : List SourceFile) :
    (∀ e, candidates target fs = .error e ↔
      ∃ before f after, fs = before ++ f :: after ∧ (∀ g ∈ before, ∃ file, g.read = .ok file) ∧
        f.read = .error e) ∧
    ∀ files, fs.mapM SourceFile.read = .ok files → DeclaredOnce files →
      ∃ block : SourceFile → List (Candidate Place),
        (∀ f file, f.read = .ok file → (block f).map (fun c => (c.position, c.name)) =
          file.outline.sites.map fun site => (⟨f.path, site.literal.position⟩, site.literal.name)) ∧
        (∀ gs, gs.Perm fs → candidates target gs = .ok (gs.flatMap block)) ∧
        ∀ f ∈ fs, candidates target (fs.filter (·.package? == f.package?)) =
          .ok ((fs.filter (·.package? == f.package?)).flatMap block) := by
  constructor
  · intro e
    rw [candidates, bind_eq_error, mapM_eq_error]
    simp
  · intro files hread honce
    have hreadAs : ReadAs fs files := mapM_eq_ok.mp hread
    refine ⟨block target files, ?_, ?_, ?_⟩
    · intro f file hf
      have hpath : file.path = f.path := SourceFile.path_of_read hf
      simp [block, hf, fileCandidates, hpath]
    · intro gs hperm
      obtain ⟨other, hother, hperm⟩ := hreadAs.perm hperm
      rw [hother.candidates_eq, block_perm honce hperm]
    · intro f hf
      obtain ⟨file, hfile⟩ := exists_mapM_iff.mp ⟨files, hread⟩ f hf
      rw [SourceFile.package?_of_read hfile, (hreadAs.filter _).candidates_eq]
      refine congrArg Except.ok (List.flatMap_congr fun g hg => ?_)
      exact block_filter (beq_iff_eq.mp (List.mem_filter.mp hg).2)

deriving instance DecidableEq for Candidate

/-- A package in two files, and between them a file of another package with a type of the same
name. -/
def mixedFiles : List SourceFile :=
  [⟨"a.go", "package p\ntype A struct\x7bb B\x7d"⟩,
    ⟨"a_test.go", "package q\ntype B struct\x7b\x7d"⟩,
    ⟨"b.go", "package p\ntype B [3]int"⟩]

theorem candidates_of_mixedFiles :
    ∃ files, mixedFiles.mapM SourceFile.read = .ok files ∧ DeclaredOnce files ∧
    ∃ block : SourceFile → List (Candidate Place),
      candidates Profile.amd64.target mixedFiles = .ok (mixedFiles.flatMap block) ∧
      candidates Profile.amd64.target mixedFiles.reverse = .ok (mixedFiles.reverse.flatMap block) ∧
      candidates Profile.amd64.target (mixedFiles.eraseIdx 1) =
        .ok ((mixedFiles.eraseIdx 1).flatMap block) ∧
      mixedFiles.flatMap block =
        [⟨.struct [⟨"b", .array (.scalar (.int .w64)) 3, 0⟩], ⟨"a.go", ⟨2, 8⟩⟩, some "A"⟩,
          ⟨.struct [], ⟨"a_test.go", ⟨2, 8⟩⟩, some "B"⟩] := by
  have hcheck : ((mixedFiles.mapM SourceFile.read).toOption.any
      fun files => decide (DeclaredOnce files)) = true := by decide +kernel
  have hfilter : mixedFiles.filter (·.package? == (mixedFiles.head (by decide)).package?) =
      mixedFiles.eraseIdx 1 := by decide +kernel
  have hrecords : candidates Profile.amd64.target mixedFiles =
      .ok [⟨.struct [⟨"b", .array (.scalar (.int .w64)) 3, 0⟩], ⟨"a.go", ⟨2, 8⟩⟩, some "A"⟩,
        ⟨.struct [], ⟨"a_test.go", ⟨2, 8⟩⟩, some "B"⟩] := by decide +kernel
  cases hread : mixedFiles.mapM SourceFile.read with
  | error e =>
    rw [hread] at hcheck
    cases hcheck
  | ok files =>
    rw [hread] at hcheck
    have honce : DeclaredOnce files := of_decide_eq_true hcheck
    obtain ⟨block, -, hperm, hown⟩ :=
      (candidates_of_files Profile.amd64.target mixedFiles).2 files hread honce
    have hall := hperm _ (List.Perm.refl mixedFiles)
    refine ⟨files, rfl, honce, block, hall, hperm _ (List.reverse_perm _), ?_, ?_⟩
    · rw [← hfilter]
      exact hown _ (List.head_mem _)
    · exact Except.ok.inj (hall.symm.trans hrecords)

end Package

end Source

end FieldOrder
