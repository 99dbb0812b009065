/-!
Target machines. A machine is known by its word size and its largest alignment, both powers of two
that fit in 64 bits; the named profiles are the machines that can be asked for by name.
-/
namespace FieldOrder

inductive TargetError where
  | unknownProfile (name : String)
  | badWordSize (size : Nat)
  | badMaxAlign (align : Nat)
deriving DecidableEq, Repr

def TargetError.message : TargetError → String
  | .unknownProfile name => "unknown target profile `" ++ name ++ "`"
  | .badWordSize size => "word size must be a positive power of two, got " ++ size.repr
  | .badMaxAlign align => "maximum alignment must be a positive power of two, got " ++ align.repr

/-- A machine, by the binary logarithms of its word size and of its largest alignment. -/
structure Target where
  wordLog : Fin 64
  alignLog : Fin 64
deriving DecidableEq, Repr

namespace Target

def word (t : Target) : Nat := Nat.pow 2 t.wordLog.val

def maxAlign (t : Target) : Nat := Nat.pow 2 t.alignLog.val

def exponent? (n : Nat) : Option (Fin 64) :=
  if h : n.log2 < 64 then
    if Nat.pow 2 n.log2 = n then some ⟨n.log2, h⟩ else none
  else none

/-- The machine with the given sizes in bytes. The word size is judged first. -/
def ofSizes (word maxAlign : Nat) : Except TargetError Target :=
  match exponent? word, exponent? maxAlign with
  | none, _ => .error (.badWordSize word)
  | some _, none => .error (.badMaxAlign maxAlign)
  | some w, some a => .ok ⟨w, a⟩

end Target

inductive Profile where
  | amd64 | arm64 | ppc64 | ppc64le | mips64 | mips64le | riscv64 | s390x | loong64 | wasm
  | i386 | arm | mips | mipsle
  | amd64p32
deriving DecidableEq, Repr

namespace Profile

def all : List Profile :=
  [amd64, arm64, ppc64, ppc64le, mips64, mips64le, riscv64, s390x, loong64, wasm,
    i386, arm, mips, mipsle, amd64p32]

def name : Profile → String
  | amd64 => "amd64"
  | arm64 => "arm64"
  | ppc64 => "ppc64"
  | ppc64le => "ppc64le"
  | mips64 => "mips64"
  | mips64le => "mips64le"
  | riscv64 => "riscv64"
  | s390x => "s390x"
  | loong64 => "loong64"
  | wasm => "wasm"
  | i386 => "386"
  | arm => "arm"
  | mips => "mips"
  | mipsle => "mipsle"
  | amd64p32 => "amd64p32"

/-- Words of eight bytes on the 64-bit machines and of four on the others; `amd64p32` has short
words and long alignment. -/
def target : Profile → Target
  | i386 | arm | mips | mipsle => ⟨2, 2⟩
  | amd64p32 => ⟨2, 3⟩
  | _ => ⟨3, 3⟩

def ofName? (name : String) : Option Profile :=
  all.find? fun p => p.name == name

end Profile

def Target.ofProfile (name : String) : Except TargetError Target :=
  match Profile.ofName? name with
  | some p => .ok p.target
  | none => .error (.unknownProfile name)

instance : Inhabited Target := ⟨Profile.amd64.target⟩

end FieldOrder
