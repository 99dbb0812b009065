import FieldOrder.Text.Unsigned

/-!
Command-line arguments: paths and options in any order. They are judged from left to right, and
the first one that settles the matter does.
-/
namespace FieldOrder.CommandLine

structure Options where
  paths : List String
  arch : Option String
  jobs : Option Nat
  sizesOnly : Bool
  order : Bool
deriving DecidableEq, Repr

inductive Command where
  | run (options : Options)
  | version
  | help
  | rejected
deriving DecidableEq, Repr

/-- What reading the arguments yields so far, or the command that it ends with. -/
abbrev Draft := Except Command Options

inductive Flag where
  | sizesOnly
  | order

inductive Setting where
  | arch
  | jobs

inductive OptionName where
  | flag (flag : Flag)
  | setting (setting : Setting)
  | version
  | help

namespace OptionName

def ofLong? : String → Option OptionName
  | "arch" => some (.setting .arch)
  | "jobs" => some (.setting .jobs)
  | "sizes-only" => some (.flag .sizesOnly)
  | "order" => some (.flag .order)
  | "version" => some .version
  | "help" => some .help
  | _ => none

def ofShort? : Char → Option OptionName
  | 'a' => some (.setting .arch)
  | 'j' => some (.setting .jobs)
  | 'o' => some (.flag .order)
  | 'V' => some .version
  | 'h' => some .help
  | _ => none

end OptionName

namespace Options

def empty : Options := ⟨[], none, none, false, false⟩

def addPath (o : Options) (path : String) : Draft :=
  if path.isEmpty then .error .rejected else .ok { o with paths := o.paths ++ [path] }

/-- A flag may be given once. -/
def raise (o : Options) : Flag → Draft
  | .sizesOnly => if o.sizesOnly then .error .rejected else .ok { o with sizesOnly := true }
  | .order => if o.order then .error .rejected else .ok { o with order := true }

def set (o : Options) (setting : Setting) (value : String) : Draft :=
  match setting with
  | .arch => if o.arch.isSome then .error .rejected else .ok { o with arch := some value }
  | .jobs =>
    match o.jobs, Text.unsigned? 10 value.toList with
    | none, some n => .ok { o with jobs := some n }
    | _, _ => .error .rejected

/-- A group of short options. A setting takes the rest of the group as its value, less an equals
sign in front; if it is the last, it still waits for its value. -/
def shorts (o : Options) : List Char → Except Command (Options × Option Setting)
  | [] => .ok (o, none)
  | c :: cs =>
    match OptionName.ofShort? c with
    | none => .error .rejected
    | some .version => .error .version
    | some .help => .error .help
    | some (.flag f) => do (← o.raise f).shorts cs
    | some (.setting s) =>
      match cs with
      | [] => .ok (o, some s)
      | '=' :: value => do .ok (← o.set s (String.ofList value), none)
      | value => do .ok (← o.set s (String.ofList value), none)

def long (o : Options) (name : String) (value : Option String) :
    Except Command (Options × Option Setting) :=
  match OptionName.ofLong? name, value with
  | some .version, none => .error .version
  | some .help, none => .error .help
  | some (.flag f), none => do .ok (← o.raise f, none)
  | some (.setting s), none => .ok (o, some s)
  | some (.setting s), some value => do .ok (← o.set s value, none)
  | _, _ => .error .rejected

def argument (o : Options) (arg : String) : Except Command (Options × Option Setting) :=
  match arg.toList with
  | '-' :: '-' :: cs =>
    let (name, rest) := cs.span (· != '=')
    o.long (String.ofList name) (if rest.isEmpty then none else some (String.ofList rest.tail))
  | '-' :: c :: cs => o.shorts (c :: cs)
  | _ => do .ok (← o.addPath arg, none)

/-- A lone dash is not an option. -/
def looksLikeOption (arg : String) : Bool :=
  match arg.toList with
  | '-' :: _ :: _ => true
  | _ => false

/-- Reads the arguments, given the setting that still waits for its value. All that follows `--` is
a path. -/
def read (o : Options) : Option Setting → List String → Draft
  | none, [] => .ok o
  | some _, [] => .error .rejected
  | some s, arg :: args =>
    if looksLikeOption arg then .error .rejected
    else do (← o.set s arg).read none args
  | none, arg :: args =>
    if arg = "--" then args.foldlM addPath o
    else do
      let (o, waiting) ← o.argument arg
      o.read waiting args

end Options

def Command.ofArguments (args : List String) : Command :=
  match Options.empty.read none args with
  | .error c => c
  | .ok o => if o.paths.isEmpty then .rejected else .run o

end FieldOrder.CommandLine
