import CallChains.Console.Session
import CallChains.Proofs.Chain.Reading
import CallChains.Proofs.Console.Colours

/-!
# What the screens say

Each thing that is shown is a text with gaps for what differs from run to run.  A hint comes in
by one way alone: the example in it has a vertical bar, and the log of a run that failed has none.
-/

namespace CallChains

namespace Text

end Text

namespace Console

/-!
## The texts
-/

section Parts

variable {r : Report} {failure : Failure}

end Parts

/-!
## Texts without a bar
-/

end Console

namespace Log.Record

end Log.Record

namespace Console

end Console

end CallChains
