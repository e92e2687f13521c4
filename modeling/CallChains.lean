import CallChains.Main
import CallChains.Proofs.CallTrie.Counting
import CallChains.Proofs.Chain.Factors
import CallChains.Proofs.Chain.Reentry
import CallChains.Proofs.Chain.Trailing
import CallChains.Proofs.Chain.Validity
import CallChains.Proofs.Console.Sessions
import CallChains.Proofs.Input.Deadlines
import CallChains.Proofs.Json.Documents
import CallChains.Proofs.Report.Bytes
import CallChains.Proofs.Report.Ends
import CallChains.Proofs.Report.Excerpts
import CallChains.Proofs.Report.Meaning
import CallChains.Proofs.Report.Names
import CallChains.Proofs.Report.Nests
import CallChains.Proofs.Report.Occurrences
import CallChains.Proofs.Report.Repetitions
import CallChains.Proofs.Report.Roots
import CallChains.Proofs.Run.Sharing
import CallChains.Store
