import CallChains.Proofs.Run.Files
import CallChains.Proofs.Run.Streams

/-!
# Runs that share their ports

What the runs of a sequence have to do with one another goes through the ports alone.  The
exporter has no part in what is read and reported; its answer is only noted in the report.
So runs over the same text report the same whether they stand alone or not, as far as the
exporter answers them the same.

Main statement: the calls of every run, the little that depends on the exporter, and what is
left for the runs behind the first one over a stream and over a text.
-/

namespace CallChains

def Report.unanswered (report : Report) : Report := { report with writeFault := none }

theorem Report.unanswered_answered (report : Report) (answer : Except Fault Unit) :
    (report.answered answer).unanswered = report.unanswered := by
  cases answer <;> rfl

theorem Report.writeFault_answered {report : Report} (h : report.writeFault = none)
    (answer : Except Fault Unit) (fault : Fault) :
    (report.answered answer).writeFault = some fault <-> answer = .error fault := by
  cases answer with
  | ok done => simp [answered, h]
  | error other => simp [answered]

theorem Report.document_answered (report : Report) (answer : Except Fault Unit) :
    (report.answered answer).document = report.document := by
  cases answer <;> rfl

/-- The order of a visit and its result, without the answer of the exporter. -/
def Visit.outcome {ρ σ : Type} (v : Visit ρ σ) : Order × Except Failure Report :=
  (v.order, v.result.map Report.unanswered)

section Sharing

variable {ρ σ τ : Type}

/-!
## The calls of a run
-/

theorem calls_of_visits {source : Source ρ} {exporter : Exporter σ} {o : Order}
    {before : Ports ρ σ} {v : Visit ρ σ} (h : o.Visits source exporter before v) :
    (forall report : Report, v.result = .ok report ->
      exists answer : Except Fault Unit,
        v.calls = [.read, .save o.output report.document answer] ∧
          forall fault, report.writeFault = some fault <-> answer = .error fault) ∧
      forall failure : Failure, v.result = .error failure ->
        v.calls = [] ∨ v.calls = [.read] := by
  constructor
  · intro report hreport
    cases h with
    | rejected _ => cases hreport
    | failed _ _ _ => cases hreport
    | @reported _ _ made answer _ _ _ hmine _ =>
        cases hreport
        refine ⟨answer, ?_, Report.writeFault_answered (Settings.writeFault_of_mine hmine) _⟩
        rw [Report.document_answered]
  · intro failure hfailure
    cases h with
    | rejected _ => exact Or.inl rfl
    | failed _ _ _ => exact Or.inr rfl
    | reported _ _ _ _ => cases hfailure

/-!
## Another exporter
-/

theorem outcome_answered (exporter : Exporter σ) (other : Exporter τ) (o : Order)
    (before : Ports ρ σ) (beside : Ports ρ τ) (taken : Reading × ρ) :
    (o.answered exporter before taken).outcome = (o.answered other beside taken).outcome ∧
      (o.answered exporter before taken).after.source =
        (o.answered other beside taken).after.source := by
  unfold Order.answered
  cases o.wanted.mine taken.1 with
  | error failure => exact ⟨rfl, rfl⟩
  | ok report => simp [Visit.outcome, Except.map, Report.unanswered_answered]

/-- Runs that are given the same agree on what depends on that only. -/
theorem map_visit_eq {α : Type} (source : Source ρ) (f : Visit ρ σ -> α) (g : Visit ρ τ -> α)
    {exporter : Exporter σ} {other : Exporter τ} {o : Order} {before : Ports ρ σ}
    {beside : Ports ρ τ} (hsame : before.source = beside.source)
    (hrejected : f ⟨o, before, .error (.invalidIdentifier o.identifier), [], before⟩ =
      g ⟨o, beside, .error (.invalidIdentifier o.identifier), [], beside⟩)
    (hanswered : forall taken, f (o.answered exporter before taken) =
      g (o.answered other beside taken)) :
    (o.visit source exporter before).map f = (o.visit source other beside).map g := by
  by_cases h : o.IsRejected
  · rw [visit_of_rejected h, visit_of_rejected h]
    exact congrArg Except.ok hrejected
  · rw [visit_of_accepted h, visit_of_accepted h, hsame]
    cases source o.start beside.source with
    | error halt => rfl
    | ok taken => exact congrArg Except.ok (hanswered taken)

theorem result_answered {exporter : Exporter σ} {o : Order} {before beside : Ports ρ σ}
    (hanswers : forall document : Document,
      (exporter o.output document before.exporter).1 =
        (exporter o.output document beside.exporter).1) (taken : Reading × ρ) :
    (o.answered exporter before taken).result = (o.answered exporter beside taken).result := by
  unfold Order.answered
  cases o.wanted.mine taken.1 with
  | error failure => rfl
  | ok report => simp only [hanswers]

def outcomes (source : Source ρ) (exporter : Exporter σ) (orders : List Order)
    (ports : Ports ρ σ) : Except Input.Halt (List (Order × Except Failure Report)) :=
  (visitAll source exporter orders ports).map fun done => done.1.map Visit.outcome

theorem outcomes_cons_of_visit {source : Source ρ} {exporter : Exporter σ} {o : Order}
    {ports : Ports ρ σ} {v : Visit ρ σ} (h : o.visit source exporter ports = .ok v)
    (orders : List Order) :
    outcomes source exporter (o :: orders) ports =
      (outcomes source exporter orders v.after).map (v.outcome :: ·) := by
  rw [outcomes, visitAll_cons, h, Except.bind, outcomes]
  cases visitAll source exporter orders v.after <;> rfl

theorem outcomes_eq (source : Source ρ) (exporter : Exporter σ) (other : Exporter τ)
    (orders : List Order) {ports : Ports ρ σ} {beside : Ports ρ τ}
    (hsame : ports.source = beside.source) :
    outcomes source exporter orders ports = outcomes source other orders beside := by
  induction orders generalizing ports beside with
  | nil => rfl
  | cons o orders ih =>
      by_cases hrejected : o.IsRejected
      · rw [outcomes_cons_of_visit (visit_of_rejected hrejected _),
          outcomes_cons_of_visit (visit_of_rejected hrejected _)]
        exact congrArg _ (ih hsame)
      · cases hread : source o.start ports.source with
        | error halt =>
            rw [outcomes, outcomes, visitAll_cons, visitAll_cons,
              visit_of_accepted hrejected, visit_of_accepted hrejected, ← hsame, hread]
            rfl
        | ok taken =>
            have hv : o.visit source exporter ports =
                .ok (o.answered exporter ports taken) := by
              rw [visit_of_accepted hrejected, hread]
              rfl
            have hw : o.visit source other beside =
                .ok (o.answered other beside taken) := by
              rw [visit_of_accepted hrejected, ← hsame, hread]
              rfl
            rcases outcome_answered exporter other o ports beside taken with
              ⟨houtcome, hafter⟩
            rw [outcomes_cons_of_visit hv, outcomes_cons_of_visit hw, houtcome, ih hafter]

/-!
## A text that can be read again
-/

section Texts

variable {exporter : Exporter σ}

theorem source_of_read_text (start : Instant) (text : Text) (reading : Reading) (rest : Text)
    (h : textSource start text = .ok (reading, rest)) : rest = text := by
  cases h
  rfl

theorem exists_alone {ports final : Ports Text σ} {visits : List (Visit Text σ)}
    (h : Visited textSource exporter ports visits final) {v : Visit Text σ}
    (hv : v ∈ visits) :
    exists alone : Visit Text σ, v.order.visit textSource exporter ports = .ok alone ∧
      alone.outcome = v.outcome ∧
      ((forall document : Document,
          (exporter v.order.output document ports.exporter).1 =
            (exporter v.order.output document v.before.exporter).1) ->
        alone.result = v.result) := by
  have hsame := (kept_of_visited source_of_read_text h hv).symm
  have hvisit := visit_of_visits (visits_of_mem h hv)
  rcases exists_visit exporter v.order ports
    (Or.inr (textSource_returns v.order.start ports.source)) with ⟨alone, halone⟩
  refine ⟨alone, halone, ?_, ?_⟩
  · have houtcome := map_visit_eq textSource Visit.outcome Visit.outcome hsame rfl
      fun taken => (outcome_answered exporter exporter v.order _ _ taken).1
    rw [halone, hvisit] at houtcome
    exact Except.ok.inj houtcome
  · intro hanswers
    have hresult := map_visit_eq textSource Visit.result Visit.result hsame rfl
      (result_answered hanswers)
    rw [halone, hvisit] at hresult
    exact Except.ok.inj hresult

end Texts

theorem runs_share_ports :
    (forall {ρ σ : Type} (source : Source ρ) (exporter : Exporter σ) (orders : List Order)
        (ports final : Ports ρ σ) (visits : List (Visit ρ σ)),
      visitAll source exporter orders ports = .ok (visits, final) ->
        visits.map Visit.order = orders ∧
        forall v, v ∈ visits ->
          (v.order.IsRejected ->
            v.result = .error (.invalidIdentifier v.order.identifier) ∧ v.calls = [] ∧
              v.after = v.before) ∧
          (forall report : Report, v.result = .ok report ->
            exists answer : Except Fault Unit,
              v.calls = [.read, .save v.order.output report.document answer] ∧
                forall fault, report.writeFault = some fault <-> answer = .error fault) ∧
          forall failure : Failure, v.result = .error failure ->
            v.calls = [] ∨ v.calls = [.read]) ∧
      (forall {ρ σ τ : Type} (source : Source ρ) (exporter : Exporter σ) (other : Exporter τ)
          (orders : List Order) (s : ρ) (x : σ) (y : τ),
        outcomes source exporter orders ⟨s, x⟩ = outcomes source other orders ⟨s, y⟩) ∧
      (forall {σ : Type} (exporter : Exporter σ) (orders : List Order)
          (ports final : Ports Input.Stream σ) (visits : List (Visit Input.Stream σ)),
        visitAll Input.Stream.read exporter orders ports = .ok (visits, final) ->
          (forall (earlier later : List (Visit Input.Stream σ)) (first : Visit Input.Stream σ),
            visits = earlier ++ first :: later ->
            ¬ first.order.IsRejected ->
              first.after.source.script = none ∧
              forall v, v ∈ later -> ¬ v.order.IsRejected ->
                v.result = .error (.noInput ports.source.timeout.reportedMillis)) ∧
          (visits.flatMap Visit.calls).countP Call.isSave <= 1) ∧
      (forall {σ : Type} (exporter : Exporter σ) (orders : List Order)
          (ports : Ports Input.Stream σ),
        (exists visits final,
            visitAll Input.Stream.read exporter orders ports = .ok (visits, final)) <->
          forall first, orders.find? (fun o => !decide o.IsRejected) = some first ->
            exists taken, ports.source.read first.start = .ok taken) ∧
      forall {σ : Type} (exporter : Exporter σ) (orders : List Order) (text : Text) (x : σ),
        exists (visits : List (Visit Text σ)) (final : Ports Text σ),
          visitAll textSource exporter orders ⟨text, x⟩ = .ok (visits, final) ∧
          forall v, v ∈ visits ->
            exists alone : Visit Text σ,
              v.order.visit textSource exporter ⟨text, x⟩ = .ok alone ∧
              alone.outcome = v.outcome ∧
              ((forall document : Document,
                  (exporter v.order.output document x).1 =
                    (exporter v.order.output document v.before.exporter).1) ->
                alone.result = v.result) := by
  refine ⟨?_, ?_, ?_, fun _ => exists_visitAll_iff, ?_⟩
  · intro ρ σ source exporter orders ports final visits h
    rcases visited_of_visitAll h with ⟨hvisited, horders⟩
    refine ⟨horders, ?_⟩
    intro v hv
    have hvisit := visits_of_mem hvisited hv
    exact ⟨hvisit.of_rejected, calls_of_visits hvisit⟩
  · intro ρ σ τ source exporter other orders s x y
    exact outcomes_eq source exporter other orders rfl
  · intro σ exporter orders ports final visits h
    have hvisited := (visited_of_visitAll h).1
    refine ⟨?_, saves_le_one hvisited⟩
    intro earlier later first hvisits haccepted
    rw [hvisits] at hvisited
    exact noInput_behind hvisited haccepted
  · intro σ exporter orders text x
    rcases exists_visitAll textSource_returns exporter orders ⟨text, x⟩ with
      ⟨visits, final, h⟩
    refine ⟨visits, final, h, ?_⟩
    intro v hv
    exact exists_alone (visited_of_visitAll h).1 hv

/-- A file exporter answers otherwise when an earlier run has made a file of what should be
a directory. -/
theorem not_forall_result_eq_alone :
    ¬ forall (σ : Type) (exporter : Exporter σ) (orders : List Order) (text : Text) (x : σ)
        (visits : List (Visit Text σ)) (final : Ports Text σ),
      visitAll textSource exporter orders ⟨text, x⟩ = .ok (visits, final) ->
        forall v, v ∈ visits ->
          forall alone : Visit Text σ,
            v.order.visit textSource exporter ⟨text, x⟩ = .ok alone ->
              v.result = alone.result := by
  intro hall
  have hlib : Pattern.ofIdentifier? "Lib".toList = some ⟨"Lib".toList, by decide⟩ := rfl
  have hfound : Pattern.raws ⟨"Lib".toList, by decide⟩ "Lib.a;".toList ≠ [] := by
    decide
  rcases exists_visit_textSource (o := .plain "Lib" "x") (by decide) hlib hfound
    (fileExporter []) with ⟨first, _, hfirst⟩
  rcases exists_visit_textSource (o := .plain "Lib" "x/y") (by decide) hlib hfound
    (fileExporter []) with ⟨second, _, hsecond⟩
  have hplace : Store.empty.resolve [] "x".toList = .ok ["x".toList] := rfl
  have hbelow : (Store.empty.put ["x".toList] first.document.file).resolve [] "x/y".toList =
      .error .notDirectory := rfl
  have hnowhere : Store.empty.resolve [] "x/y".toList = .error .noSuchFile := rfl
  have hlater := hsecond _ _ _ (fileExporter_of_error hbelow _)
  have halone := hsecond _ _ _ (fileExporter_of_error hnowhere _)
  have hvisits := visitAll_cons_of_visit (hfirst _ _ _ (fileExporter_of_ok hplace _))
    (visitAll_cons_of_visit hlater (visitAll_nil _ _ _))
  have hsame := hall _ _ _ _ _ _ _ hvisits _ (List.mem_cons_of_mem _ List.mem_cons_self) _ halone
  have hfaults : Except.ok (some Fault.notDirectory) = Except.ok (some Fault.noSuchFile) :=
    congrArg (Except.map Report.writeFault) hsame
  cases hfaults

end Sharing

end CallChains
