import CallChains.Proofs.Clock
import CallChains.Proofs.Console.Screens
import CallChains.Proofs.Input.Verdicts
import CallChains.Proofs.Run.Files

/-!
# What a session leaves behind

A session can stop at the identifier, at the input, at the pattern and at the matches, in this
order; the first stage that fails is the only one that shows.  Behind the last stage the document
is written, and even if that fails the session succeeds.

Main statement: status, outputs and files of a session agree with what its input came to, in
whatever order reader and listener went on.
-/

namespace CallChains

namespace Run

end Run

namespace Console

namespace Command

def settings (c : Command) : Settings :=
  ⟨c.identifier, c.output, Duration.ofMillis c.timeoutMillis⟩

namespace FailsFirst

variable {c : Command} {received : Except Fault (List UInt8)} {failure : Failure} {text : Text}

end FailsFirst

end Command

section Sessions

variable {arguments : List Text} {c : Command}

end Sessions

end Console

end CallChains
