import CallChains.Proofs.Report.Repetitions
import CallChains.Proofs.Run.Orders
import CallChains.Store
import CallChains.Text.Utf8

/-!
# Files written by runs

A file exporter resolves the output of a run to a place in its store and puts the text of
the document there.  Different outputs may lead to the same place; the file is then that of
the last run.

Main statement: after any sequence of runs each place holds what the last run that wrote
there left, and what it held at the start if none did.
-/

namespace CallChains

namespace Store

theorem write_eq (s : Store) (working : Place) (path : Text) (content : List UInt8) :
    s.write working path content =
      (s.resolve working path).map fun place => s.put place (.file content) := by
  rw [write]
  cases s.resolve working path <;> rfl

theorem ne_nil_of_fileIn {s : Store} {directory place : Place} {slashed : Bool} {text : Text}
    (h : s.fileIn directory slashed text = .ok place) : place ≠ [] := by
  unfold fileIn at h
  split at h
  · cases h
  · split at h
    · cases h
    · split at h
      · cases h
      · cases h
        simp

/-- A file never stands at the root. -/
theorem ne_nil_of_walk {s : Store} {slashed : Bool} {directory place : Place}
    {parts : List Part} (h : s.walk slashed directory parts = .ok place) : place ≠ [] := by
  fun_induction walk s slashed directory parts with
  | case1 => cases h
  | case2 directory text => exact ne_nil_of_fileIn h
  | case3 directory part rest _ ih =>
      cases henter : s.enter directory part with
      | error fault =>
          rw [henter] at h
          cases h
      | ok next =>
          rw [henter] at h
          exact ih next h

theorem ne_nil_of_resolve {s : Store} {working place : Place} {path : Text}
    (h : s.resolve working path = .ok place) : place ≠ [] := by
  unfold resolve at h
  split at h
  · cases h
  · split at h
    · cases h
    · split at h
      · cases h
      · exact ne_nil_of_walk h

/-!
## Paths that lead nowhere
-/

end Store

def fileExporter (working : Store.Place) : Exporter Store := fun output document store =>
  match store.write working output (Utf8.encode document.pretty) with
  | .ok next => (.ok (), next)
  | .error fault => (.error fault, store)

def Document.file (d : Document) : Store.Node := .file (Utf8.encode d.pretty)

def Visit.Writes {ρ : Type} (working : Store.Place) (v : Visit ρ Store)
    (place : Store.Place) : Prop :=
  exists report : Report, v.result = .ok report ∧ report.writeFault = none ∧
    v.before.exporter.resolve working v.order.output = .ok place

section Files

variable {ρ : Type} {source : Source ρ} {working : Store.Place}

/-!
## One run
-/

theorem fileExporter_of_ok {store : Store} {output : Text} {place : Store.Place}
    (h : store.resolve working output = .ok place) (d : Document) :
    fileExporter working output d store = (.ok (), store.put place d.file) := by
  rw [fileExporter, Store.write_eq, h]
  rfl

theorem fileExporter_of_error {store : Store} {output : Text} {fault : Fault}
    (h : store.resolve working output = .error fault) (d : Document) :
    fileExporter working output d store = (.error fault, store) := by
  rw [fileExporter, Store.write_eq, h]
  rfl

/-- A run either puts its whole document at the place of its output, or it says that it did
not and leaves the store alone. -/
theorem writes_or_keeps {o : Order} {before : Ports ρ Store} {v : Visit ρ Store}
    (h : o.Visits source (fileExporter working) before v) :
    (exists (report : Report) (place : Store.Place), v.result = .ok report ∧
        report.writeFault = none ∧
        v.before.exporter.resolve working v.order.output = .ok place ∧
        v.after.exporter = v.before.exporter.put place report.document.file) ∨
      ((forall report : Report, v.result = .ok report -> report.writeFault ≠ none) ∧
        v.after.exporter = v.before.exporter) := by
  cases h with
  | rejected hrejected =>
      refine Or.inr ⟨?_, rfl⟩
      intro report hreport
      cases hreport
  | failed haccepted hread hmine =>
      refine Or.inr ⟨?_, rfl⟩
      intro report hreport
      cases hreport
  | @reported reading rest report answer left haccepted hread hmine hsave =>
      cases hplace : before.exporter.resolve working o.output with
      | ok place =>
          rw [fileExporter_of_ok hplace] at hsave
          cases hsave
          exact Or.inl ⟨report, place, rfl, Settings.writeFault_of_mine hmine, rfl, rfl⟩
      | error fault =>
          rw [fileExporter_of_error hplace] at hsave
          cases hsave
          right
          constructor
          · intro other hother
            cases hother
            exact Option.some_ne_none fault
          · rfl

theorem get?_of_writes {o : Order} {before : Ports ρ Store} {v : Visit ρ Store}
    (h : o.Visits source (fileExporter working) before v) {place : Store.Place}
    (hwrites : v.Writes working place) :
    exists report : Report, v.result = .ok report ∧
      v.after.exporter.get? place = some report.document.file := by
  rcases hwrites with ⟨other, hother, hnone, hresolve⟩
  rcases writes_or_keeps h with ⟨report, target, hreport, _, htarget, hafter⟩ | ⟨hfault, _⟩
  · rw [hresolve, Except.ok.injEq] at htarget
    refine ⟨report, hreport, ?_⟩
    rw [hafter, ← htarget]
    exact Store.get?_put_self _ (Store.ne_nil_of_resolve hresolve) _
  · exact absurd hnone (hfault other hother)

theorem get?_of_not_writes {o : Order} {before : Ports ρ Store} {v : Visit ρ Store}
    (h : o.Visits source (fileExporter working) before v) {place : Store.Place}
    (hnot : ¬ v.Writes working place) :
    v.after.exporter.get? place = v.before.exporter.get? place := by
  rcases writes_or_keeps h with ⟨report, target, hreport, hnone, htarget, hafter⟩ | ⟨_, hafter⟩
  · have hne : place ≠ target := by
      intro hsame
      exact hnot ⟨report, hreport, hnone, hsame ▸ htarget⟩
    rw [hafter, Store.get?_put_of_ne _ hne]
  · rw [hafter]

/-!
## Any number of runs
-/

def LastWrites (working : Store.Place) (visits : List (Visit ρ Store)) (place : Store.Place)
    (report : Report) : Prop :=
  exists earlier v later, visits = earlier ++ v :: later ∧ v.Writes working place ∧
    v.result = .ok report ∧ forall u, u ∈ later -> ¬ u.Writes working place

theorem get?_of_visited {ports final : Ports ρ Store} {visits : List (Visit ρ Store)}
    (h : Visited source (fileExporter working) ports visits final) (place : Store.Place) :
    ((forall v, v ∈ visits -> ¬ v.Writes working place) ∧
        final.exporter.get? place = ports.exporter.get? place) ∨
      exists report : Report, LastWrites working visits place report ∧
        final.exporter.get? place = some report.document.file := by
  induction h with
  | nil => exact Or.inl ⟨List.forall_mem_nil _, rfl⟩
  | @cons v visits before final hvisit _ ih =>
      have hbefore := (order_of_visits hvisit).2
      rcases ih with ⟨hnone, hkeep⟩ |
        ⟨report, ⟨earlier, u, later, hvisits, hwrites, hreport, hlater⟩, hfile⟩
      · by_cases hwrites : v.Writes working place
        · rcases get?_of_writes hvisit hwrites with ⟨report, hreport, hfile⟩
          exact Or.inr ⟨report, ⟨[], v, visits, rfl, hwrites, hreport, hnone⟩,
            hkeep.trans hfile⟩
        · left
          constructor
          · exact List.forall_mem_cons.mpr ⟨hwrites, hnone⟩
          · rw [hkeep, get?_of_not_writes hvisit hwrites, hbefore]
      · exact Or.inr ⟨report,
          ⟨v :: earlier, u, later, congrArg (v :: ·) hvisits, hwrites, hreport, hlater⟩, hfile⟩

theorem files_written_whole (source : Source ρ) (working : Store.Place) (orders : List Order)
    (ports final : Ports ρ Store) (visits : List (Visit ρ Store))
    (h : visitAll source (fileExporter working) orders ports = .ok (visits, final)) :
    (forall place : Store.Place,
      ((forall v, v ∈ visits -> ¬ v.Writes working place) ∧
          final.exporter.get? place = ports.exporter.get? place) ∨
        exists report : Report, LastWrites working visits place report ∧
          final.exporter.get? place = some (.file (Utf8.encode report.document.pretty))) ∧
      (forall place : Store.Place,
        ports.exporter.get? place = none -> final.exporter.get? place ≠ none ->
          exists v, v ∈ visits ∧ v.Writes working place) ∧
      (forall v, v ∈ visits ->
        (forall report : Report, v.result = .ok report -> report.writeFault ≠ none) ->
          v.after.exporter = v.before.exporter) ∧
      forall v, v ∈ visits -> forall report : Report, v.result = .ok report ->
        report.writeFault = none ->
          exists place : Store.Place, v.Writes working place ∧
            v.after.exporter = v.before.exporter.put place
              (.file (Utf8.encode report.document.pretty)) := by
  rcases visited_of_visitAll h with ⟨hvisited, _⟩
  refine ⟨get?_of_visited hvisited, ?_, ?_, ?_⟩
  · intro place hnew hfinal
    rcases get?_of_visited hvisited place with
      ⟨_, hkeep⟩ | ⟨report, ⟨earlier, v, later, hvisits, hwrites, _, _⟩, _⟩
    · rw [hkeep] at hfinal
      exact absurd hnew hfinal
    · exact ⟨v, by simp [hvisits], hwrites⟩
  · intro v hv hfault
    rcases writes_or_keeps (visits_of_mem hvisited hv) with
      ⟨report, _, hreport, hnone, _, _⟩ | ⟨_, hkeep⟩
    · exact absurd hnone (hfault report hreport)
    · exact hkeep
  · intro v hv report hreport hnone
    rcases writes_or_keeps (visits_of_mem hvisited hv) with
      ⟨other, place, hother, _, hplace, hafter⟩ | ⟨hfault, _⟩
    · rw [hreport, Except.ok.injEq] at hother
      rw [hother]
      exact ⟨place, ⟨other, hreport.trans (congrArg Except.ok hother), hother ▸ hnone, hplace⟩,
        hafter⟩
    · exact absurd hnone (hfault report hreport)

end Files

/-- Two runs write one file under two paths, over a longer content, and a third one fails
below it. -/
theorem files_written_whole_over_longer :
    let orders : List Order :=
      [.plain "Lib" "t.json", .plain "Sup" "./t.json", .plain "Lib" "t.json/x"]
    let store := Store.empty.put ["t.json".toList] (.file (List.replicate 99 32))
    exists visits final,
      visitAll textSource (fileExporter []) orders ⟨"Lib.a.b;\nSup.c;".toList, store⟩ =
          .ok (visits, final) ∧
        (exists report : Report, LastWrites [] visits ["t.json".toList] report ∧
          final.exporter.get? ["t.json".toList] =
            some (.file (Utf8.encode report.document.pretty))) ∧
        final.exporter.get? ["t.json".toList] = some (.file (Utf8.encode
          "\x7b\n    \"Sup.\": \x7b\n        \"c\": \x7b\x7d\n    \x7d\n\x7d".toList)) := by
  intro orders store
  have hlib : Pattern.ofIdentifier? "Lib".toList = some ⟨"Lib".toList, by decide⟩ := rfl
  have hsup : Pattern.ofIdentifier? "Sup".toList = some ⟨"Sup".toList, by decide⟩ := rfl
  have hlibFound : Pattern.raws ⟨"Lib".toList, by decide⟩ "Lib.a.b;\nSup.c;".toList ≠ [] := by
    decide
  have hsupFound : Pattern.raws ⟨"Sup".toList, by decide⟩ "Lib.a.b;\nSup.c;".toList ≠ [] := by
    decide
  rcases exists_visit_textSource (o := .plain "Lib" "t.json") (by decide) hlib hlibFound
    (fileExporter []) with ⟨first, _, hfirst⟩
  rcases exists_visit_textSource (o := .plain "Sup" "./t.json") (by decide) hsup hsupFound
    (fileExporter []) with ⟨second, hmined, hsecond⟩
  rcases exists_visit_textSource (o := .plain "Lib" "t.json/x") (by decide) hlib hlibFound
    (fileExporter []) with ⟨third, _, hthird⟩
  -- Where a path leads does not depend on what the files on its way hold.
  have hover : store.resolve [] "t.json".toList = .ok ["t.json".toList] := rfl
  have hagain : (store.put ["t.json".toList] first.document.file).resolve [] "./t.json".toList =
      .ok ["t.json".toList] := rfl
  have hbelow : ((store.put ["t.json".toList] first.document.file).put ["t.json".toList]
      second.document.file).resolve [] "t.json/x".toList = .error .notDirectory := rfl
  have hfile : second.document.file = .file (Utf8.encode
      "\x7b\n    \"Sup.\": \x7b\n        \"c\": \x7b\x7d\n    \x7d\n\x7d".toList) := by
    rw [Document.file, Report.document_of_ofText hsup hmined]
    decide +kernel
  have hlast := visitAll_cons_of_visit (hthird _ _ _ (fileExporter_of_error hbelow _))
    (visitAll_nil _ _ _)
  have hlater := visitAll_cons_of_visit (hsecond _ _ _ (fileExporter_of_ok hagain _)) hlast
  have hvisits := visitAll_cons_of_visit (hfirst _ _ _ (fileExporter_of_ok hover _)) hlater
  have hfinal := (Store.get?_put_self (store.put ["t.json".toList] first.document.file)
    (List.cons_ne_nil "t.json".toList []) second.document.file).trans (congrArg some hfile)
  refine ⟨_, _, hvisits, ?_, hfinal⟩
  rcases (files_written_whole textSource [] orders _ _ _ hvisits).1 ["t.json".toList] with
    ⟨_, hkeep⟩ | hwritten
  · exfalso
    have hsame := hfinal.symm.trans hkeep
    revert hsame
    decide
  · exact hwritten

end CallChains
