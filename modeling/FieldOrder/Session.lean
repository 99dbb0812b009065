import FieldOrder.Source.Package

/-!
Sessions: files are added one by one and the target changes, and the struct types so far can be
asked for in between. A request that fails leaves the session as it was.
-/
namespace FieldOrder
open Source

structure Session where
  calculator : Calculator
  files : List SourceFile

namespace Session

inductive Request where
  | add (file : SourceFile)
  | retarget (calculator : Except TargetError Calculator)
  | list
  | inspect

inductive Error where
  | noFiles
  | file (error : FileError)

inductive Answer where
  /-- The number of files so far. -/
  | added (files : Nat)
  | retargeted (target : Except TargetError Target)
  | listed (candidates : Except Error (List (Candidate Place)))
  | inspected (verdicts : Except Error (List (Candidate Place × Verdict Place)))

/-- The struct types in the files so far, of which there has to be one. -/
def candidates (s : Session) : Except Error (List (Candidate Place)) :=
  if s.files.isEmpty then .error .noFiles
  else (Package.candidates s.calculator.target s.files).mapError .file

def verdicts (s : Session) : Except Error (List (Candidate Place × Verdict Place)) :=
  s.candidates.map fun cs => cs.map fun c => (c, s.calculator.verdict c)

def step (s : Session) : Request → Session × Answer
  | .add file =>
    let files := s.files ++ [file]
    ({ s with files }, .added files.length)
  | .retarget (.ok calculator) => ({ s with calculator }, .retargeted (.ok calculator.target))
  | .retarget (.error e) => (s, .retargeted (.error e))
  | .list => (s, .listed s.candidates)
  | .inspect => (s, .inspected s.verdicts)

def run (s : Session) : List Request → List Answer
  | [] => []
  | r :: rs =>
    let (s, answer) := s.step r
    answer :: s.run rs

end Session

end FieldOrder
