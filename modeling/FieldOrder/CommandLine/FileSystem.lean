/-!
What the command line needs to know of a file system, and a tree of files that answers it.
-/
namespace FieldOrder.CommandLine

inductive ReadError where
  | notFound
  | notADirectory
  | notText
  | other (reason : String)
deriving DecidableEq, Repr

def ReadError.reason : ReadError → String
  | notFound => "No such file or directory (os error 2)"
  | notADirectory => "Not a directory (os error 20)"
  | notText => "stream did not contain valid UTF-8"
  | other reason => reason

abbrev Contents := Except ReadError String

def Contents.ofBytes (bytes : ByteArray) : Contents :=
  match String.fromUTF8? bytes with
  | some text => .ok text
  | none => .error .notText

/-- What a path leads to: a directory, with the names and contents of its regular files, or
something to be read. -/
inductive Node where
  | directory (files : List (String × Contents))
  | file (contents : Contents)

abbrev FileSystem := String → Node

inductive FileTree where
  | directory (entries : List (String × FileTree))
  | file (bytes : ByteArray)

namespace FileTree

def empty : FileTree := .directory []

def replaceEntry (entries : List (String × FileTree)) (name : String) (tree : FileTree) :
    List (String × FileTree) :=
  entries.filter (·.1 != name) ++ [(name, tree)]

/-- Puts a file below the tree, making the directories that it needs. With no file, only these are
made. -/
def insertAt (bytes : Option ByteArray) : List String → FileTree → FileTree
  | [], tree => match bytes with
    | some bytes => .file bytes
    | none => tree
  | _ :: _, .file old => .file old
  | name :: names, .directory entries =>
    let tree := insertAt bytes names ((entries.lookup name).getD empty)
    .directory (replaceEntry entries name tree)

def insert (tree : FileTree) (path : String) (bytes : Option ByteArray) : FileTree :=
  insertAt bytes ((path.splitOn "/").filter fun name => name ≠ "" ∧ name ≠ ".") tree

/-- Follows the parts of a path from the current tree, given the directories around it. Every part
needs a directory to be looked up in, an empty one too. -/
def walk (outer : List FileTree) (here : FileTree) : List String → Except ReadError FileTree
  | [] => .ok here
  | name :: names =>
    match here with
    | .file _ => .error .notADirectory
    | .directory entries =>
      if name = "" ∨ name = "." then walk outer here names
      else if name = ".." then
        match outer with
        | parent :: outer => walk outer parent names
        | [] => .error .notFound
      else
        match entries.lookup name with
        | some there => walk (here :: outer) there names
        | none => .error .notFound

def filesOf (entries : List (String × FileTree)) : List (String × Contents) :=
  entries.filterMap fun (name, tree) =>
    match tree with
    | .file bytes => some (name, .ofBytes bytes)
    | .directory _ => none

/-- What a path leads to, from the top of the tree. Nothing above the top is known. -/
def node (tree : FileTree) (path : String) : Node :=
  match path.toList with
  | '/' :: _ => .file (.error .notFound)
  | _ =>
    match walk [] tree (path.splitOn "/") with
    | .ok (.directory entries) => .directory (filesOf entries)
    | .ok (.file bytes) => .file (.ofBytes bytes)
    | .error e => .file (.error e)

end FileTree

end FieldOrder.CommandLine
