import FieldOrder.CommandLine.Report

/-!
The command-line program: reads the files that the arguments name, and prints the report.
-/
namespace FieldOrder.CommandLine

def ReadError.ofIOError : IO.Error → ReadError
  | .noFileOrDirectory .. => .notFound
  | .inappropriateType .. => .notADirectory
  | e => .other (toString e)

def readContents (path : String) : IO Contents := do
  try
    return .ofBytes (← IO.FS.readBinFile path)
  catch e =>
    return .error (.ofIOError e)

/-- The names of the Go files of a directory, or nothing if the path is not one. -/
def listDirectory (path : String) : IO (Option (List String)) := do
  try
    let directory ← IO.FS.realPath path
    unless ← directory.isDir do
      return none
    let entries ← directory.readDir
    let files ← entries.toList.filterM fun e => do
      return isGoFile e.fileName && !(← e.path.isDir)
    return some (files.map (·.fileName))
  catch _ =>
    return none

def readNode (path : String) : IO Node := do
  match ← listDirectory path with
  | some names =>
    return .directory (← names.mapM fun name => do
      return (name, ← readContents (joinPath path name)))
  | none => return .file (← readContents path)

def survey (paths : List String) : IO FileSystem := do
  let nodes ← paths.mapM fun path => do return (path, ← readNode path)
  return fun path => (nodes.lookup path).getD (.file (.error .notFound))

end FieldOrder.CommandLine

open FieldOrder.CommandLine in
def main (args : List String) : IO UInt32 := do
  let command := Command.ofArguments args
  let fs ← match command with
    | .run options => survey options.paths
    | _ => survey []
  let output := command.execute fs (← IO.getEnv "GOARCH")
  IO.print output.stdout
  IO.eprint output.stderr
  return output.status.toUInt32
