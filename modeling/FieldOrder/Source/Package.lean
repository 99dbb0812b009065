import FieldOrder.Finding
import FieldOrder.Source.Outline
import FieldOrder.Source.Resolution

/-!
Files as parts of packages. The types that a package declares are visible in all of its files; files
of other packages may be among them and do not mix.
-/
namespace FieldOrder.Source

structure SourceFile where
  path : String
  text : String
deriving DecidableEq, Repr

structure FileError where
  path : String
  error : SyntaxError
deriving DecidableEq, Repr

def FileError.message (e : FileError) : String := e.error.message e.path

structure FileOutline where
  path : String
  outline : Outline

def SourceFile.read (f : SourceFile) : Except FileError FileOutline :=
  match Outline.ofSource f.text with
  | .ok outline => .ok ⟨f.path, outline⟩
  | .error e => .error ⟨f.path, e⟩

namespace Package

/-- The types that the files of a package declare, the newest first. -/
def decls (files : List FileOutline) (name : String) : List TypeDecl :=
  ((files.filter (·.outline.package == name)).flatMap (·.outline.decls)).reverse

def fileCandidates (target : Target) (files : List FileOutline) (file : FileOutline) :
    List (Candidate Place) :=
  let env : Env := ⟨decls files file.outline.package, target.intWidth⟩
  file.outline.sites.map fun site =>
    { shape := env.resolveStruct site.scope site.literal.fields
      position := ⟨file.path, site.literal.position⟩
      name := site.literal.name }

def candidates (target : Target) (files : List SourceFile) :
    Except FileError (List (Candidate Place)) := do
  let files ← files.mapM SourceFile.read
  .ok (files.flatMap (fileCandidates target files))

end Package

end FieldOrder.Source
