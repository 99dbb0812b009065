import FieldOrder.CommandLine.Arguments
import FieldOrder.CommandLine.FileSystem
import FieldOrder.Source.Package

/-!
What a run prints and how it ends. Everything is read before anything is reported, so a run that
cannot read its input reports nothing else.
-/
namespace FieldOrder.CommandLine
open Source

structure Output where
  status : Nat
  stdout : String
  stderr : String
deriving DecidableEq, Repr

inductive Fatal where
  | target (error : TargetError)
  | unreadable (path : String) (error : ReadError)
  | noFiles (path : String)
  | malformed (error : FileError)
deriving DecidableEq, Repr

def Fatal.message : Fatal → String
  | target e => e.message
  | unreadable path e => "cannot read " ++ path ++ ": " ++ e.reason
  | noFiles path => path ++ ": no Go files found"
  | malformed e => e.message

/-- Go files have a name before the extension. -/
def isGoFile (name : String) : Bool := name.endsWith ".go" && name != ".go"

def joinPath (directory name : String) : String :=
  if directory.endsWith "/" then directory ++ name else directory ++ "/" ++ name

def readFile (path : String) (contents : Contents) : Except Fatal SourceFile :=
  match contents with
  | .ok text => .ok ⟨path, text⟩
  | .error e => .error (.unreadable path e)

/-- The files that a path stands for: itself, or the Go files of a directory, by name. -/
def openPath (fs : FileSystem) (path : String) : Except Fatal (List SourceFile) :=
  match fs path with
  | .file contents => do .ok [← readFile path contents]
  | .directory files =>
    let files := (files.filter (isGoFile ·.1)).mergeSort fun a b => a.1 ≤ b.1
    if files.isEmpty then .error (.noFiles path)
    else files.mapM fun (name, contents) => readFile (joinPath path name) contents

def pathCandidates (fs : FileSystem) (target : Target) (path : String) :
    Except Fatal (List (Candidate Place)) := do
  (Package.candidates target (← openPath fs path)).mapError .malformed

/-- The machine asked for: by option, by environment, or else amd64. -/
def chooseTarget (arch environment : Option String) : Except TargetError Target :=
  Target.ofProfile (arch.getD ((environment.filter (· ≠ "")).getD Profile.amd64.name))

def findingLine (f : Finding Place) : String :=
  let (actual, optimal) := f.numbers
  match f.kind with
  | .size =>
    f.position.text ++ ": struct of size " ++ actual.repr ++ " could be " ++ optimal.repr ++ "\n"
  | .pointerBytes =>
    f.position.text ++ ": struct with " ++ actual.repr ++ " pointer bytes could be " ++
      optimal.repr ++ "\n"

def orderLine (f : Finding Place) : String :=
  "\tsuggested order: " ++ String.intercalate ", " f.suggested ++ "\n"

def foundText (withOrder : Bool) : Verdict Place → String
  | .ok findings =>
    String.join (findings.map fun f => findingLine f ++ if withOrder then orderLine f else "")
  | .error _ => ""

def skippedText : Verdict Place → String
  | .ok _ => ""
  | .error (place, e) => place.text ++ ": cannot analyze struct: " ++ e.message ++ "\n"

def isFound : Verdict Place → Bool
  | .ok findings => !findings.isEmpty
  | .error _ => false

def isSkipped : Verdict Place → Bool
  | .ok _ => false
  | .error _ => true

/-- Something found is 3, otherwise something skipped is 1. -/
def status (verdicts : List (Verdict Place)) : Nat :=
  if verdicts.any isFound then 3
  else if verdicts.any isSkipped then 1
  else 0

def report (withOrder : Bool) (verdicts : List (Verdict Place)) : Output :=
  { status := status verdicts
    stdout := String.join (verdicts.map (foundText withOrder))
    stderr := String.join (verdicts.map skippedText) }

def verdicts (fs : FileSystem) (environment : Option String) (o : Options) :
    Except Fatal (List (Verdict Place)) := do
  let target ← (chooseTarget o.arch environment).mapError .target
  let calculator : Calculator := ⟨target, !o.sizesOnly⟩
  let candidates ← o.paths.mapM (pathCandidates fs target)
  .ok (candidates.flatten.map calculator.verdict)

def usage : String :=
  "Usage: maligned [OPTIONS] <PATHS>...\n"

def helpText : String :=
  "Finds structs whose fields could be ordered to take less memory\n\n" ++ usage ++
  "\nArguments:\n" ++
  "  <PATHS>...  Go files, or directories holding one package each\n" ++
  "\nOptions:\n" ++
  "  -a, --arch <ARCH>  Target machine (amd64, 386, arm64, ...). Defaults to $GOARCH, then amd64\n"
  ++ "      --sizes-only   Only report wasted space, not pointer-bearing prefixes\n" ++
  "  -o, --order        Print the suggested field order under each finding\n" ++
  "  -j, --jobs <JOBS>  Worker threads (0 picks one per core) [default: 0]\n" ++
  "  -h, --help         Print help\n" ++
  "  -V, --version      Print version\n"

def Command.execute (fs : FileSystem) (environment : Option String) : Command → Output
  | .version => ⟨0, "maligned 0.1.0\n", ""⟩
  | .help => ⟨0, helpText, ""⟩
  | .rejected => ⟨2, "", usage⟩
  | .run o =>
    match verdicts fs environment o with
    | .ok verdicts => report o.order verdicts
    | .error e => ⟨1, "", "maligned: " ++ e.message ++ "\n"⟩

end FieldOrder.CommandLine
