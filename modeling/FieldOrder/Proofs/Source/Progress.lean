import FieldOrder.Proofs.Source.Steps

/-!
Reading goes on. Every reader that takes part in a loop leaves the cursor further on than it found
it, and wherever it leaves it there is a token of the file in front of it. The loops are put as
rounds, so that this can be said of each round; places in the file are then counted by tokens, so
that it can be said where a round ends and that whatever is looked up on the way is there.
-/
namespace FieldOrder.Source

open Reader

/-! ### Places in a file -/

namespace Cursor

variable {tokens : List Token} {i : Nat}

end Cursor

end FieldOrder.Source
