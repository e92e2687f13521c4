import CallChains.Input.Stream
import CallChains.Survey.Log

/-!
# Runs

A run reads a text, makes the report of it and saves the document.  Reading and
saving are actions in any monad: in a program they touch the world, in a theory
they change a state.  A document that cannot be saved does not undo the run; its
report says why.
-/

namespace CallChains

structure Run where
  log : List Log.Record
  result : Except Failure Report

namespace Run

def readingLog (reading : Reading) : List Log.Record :=
  reading.chunkSizes.map .inputChunk

def perform {m : Type → Type} [Monad m] (read : m Reading)
    (save : Text → Document → m (Except Fault Unit)) (settings : Settings) : m Run := do
  let reading ← read
  let readLog := readingLog reading
  match reading.result with
  | .error failure => return ⟨readLog, .error failure⟩
  | .ok text =>
      match settings.survey text with
      | .error failure => return ⟨readLog, .error failure⟩
      | .ok s =>
          let report? := s.report? settings.output
          let log := readLog ++ s.log report?
          match report? with
          | none => return ⟨log, .error (.noMatches s.pattern)⟩
          | some report =>
              match ← save settings.output report.document with
              | .ok () => return ⟨log, .ok report⟩
              | .error fault =>
                  return ⟨log ++ [.writeFailed settings.output fault],
                    .ok { report with writeFault := some fault }⟩

end Run

end CallChains
