import CallChains.Log
import CallChains.Report

/-!
# The log of a survey

The records of a survey follow its stages.  At each stage come the cuts of its
chain, and then those of its chains that no earlier stage has.  A survey that
finds nothing has only the record of its matches.
-/

namespace CallChains

/-- The records of one stage, of whose chains `fresh` were not met before. -/
def Stage.log (stage : Stage) (fresh : List Chain) : List Log.Record :=
  stage.split.cuts.map (fun cut => .chainCut cut.start cut.chain) ++
    fresh.map .chainFound

def Survey.log (s : Survey) (report : Option Report) : List Log.Record :=
  .matchCount s.pattern s.found.length ::
    match report with
    | none => []
    | some r =>
        .textCount r.textCount ::
          (List.zipWith Stage.log s.stages (FirstSeen.news s.chainLists)).flatten ++
            [.chainCount r.chainCount, .methodCount r.methodCount]

end CallChains
