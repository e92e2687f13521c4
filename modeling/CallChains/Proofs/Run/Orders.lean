import CallChains.Proofs.Report.Summary
import CallChains.Run

/-!
# Runs by order

Several runs may share one source and one exporter.  Each run follows an order, which says
what is looked for and where the document goes; an order with a bad identifier is rejected
before anything is read.  Source and exporter have states of their own, which the runs hand
on from one to the next, and what a run asks of them is noted call by call.

Main statement: what a run comes to is fixed by its order, by what the source gives it and
by what the exporter answers.
-/

namespace CallChains

structure Order where
  identifier : Text
  output : Text
  timeout : Duration
  /-- Whether the identifier has to be valid. -/
  checked : Bool
  start : Instant

namespace Order

def settings (o : Order) : Except Failure Settings := do
  let base ←
    if o.checked then Settings.ofIdentifier o.identifier
    else .ok (Settings.unchecked o.identifier)
  return { base with output := o.output, timeout := o.timeout }

/-- A checked order with the default time-out, at the first instant. -/
def plain (identifier output : String) : Order where
  identifier := identifier.toList
  output := output.toList
  timeout := Duration.ofMillis Settings.defaultTimeoutMillis
  checked := true
  start := ⟨0, 0, by decide⟩

def IsRejected (o : Order) : Prop := o.checked = true ∧ isIdentifier o.identifier = false

instance (o : Order) : Decidable o.IsRejected := inferInstanceAs (Decidable (_ ∧ _))

def wanted (o : Order) : Settings := ⟨o.identifier, o.output, o.timeout⟩

theorem settings_of_rejected {o : Order} (h : o.IsRejected) :
    o.settings = .error (.invalidIdentifier o.identifier) := by
  rw [settings, if_pos h.1, Settings.ofIdentifier, h.2]
  rfl

theorem settings_of_accepted {o : Order} (h : ¬ o.IsRejected) :
    o.settings = .ok o.wanted := by
  unfold settings
  split
  · next hchecked =>
      have hvalid : isIdentifier o.identifier = true := by
        rw [← Bool.not_eq_false]
        exact fun hinvalid => h ⟨hchecked, hinvalid⟩
      rw [Settings.ofIdentifier, if_pos hvalid]
      rfl
  · rfl

end Order

/-!
## Ports
-/

abbrev Source (ρ : Type) := Instant -> ρ -> Except Input.Halt (Reading × ρ)

abbrev Exporter (σ : Type) := Text -> Document -> σ -> Except Fault Unit × σ

def textSource : Source Text := fun _ text => .ok (⟨[], .ok text⟩, text)

theorem textSource_returns (start : Instant) (text : Text) :
    exists taken, textSource start text = .ok taken := ⟨_, rfl⟩

structure Ports (ρ σ : Type) where
  source : ρ
  exporter : σ

inductive Call where
  | read
  | save (output : Text) (document : Document) (answer : Except Fault Unit)

/-- What a run did: its calls in order, its result, and the ports before and after it. -/
structure Visit (ρ σ : Type) where
  order : Order
  before : Ports ρ σ
  result : Except Failure Report
  calls : List Call
  after : Ports ρ σ

/-- Actions at ports, which note their calls and need not return. -/
abbrev PortsM (ρ σ : Type) := StateT (Ports ρ σ × List Call) (Except Input.Halt)

section Ports

variable {ρ σ : Type}

def readPort (source : Source ρ) (start : Instant) : PortsM ρ σ Reading :=
  fun (ports, calls) => do
    let (reading, rest) ← source start ports.source
    return (reading, ⟨rest, ports.exporter⟩, calls ++ [.read])

def savePort (exporter : Exporter σ) (output : Text) (document : Document) :
    PortsM ρ σ (Except Fault Unit) :=
  fun (ports, calls) =>
    let (answer, rest) := exporter output document ports.exporter
    return (answer, ⟨ports.source, rest⟩, calls ++ [.save output document answer])

def Order.perform (source : Source ρ) (exporter : Exporter σ) (o : Order) : PortsM ρ σ Run :=
  match o.settings with
  | .error failure => return ⟨[], .error failure⟩
  | .ok settings => Run.perform (readPort source o.start) (savePort exporter) settings

def Order.visit (source : Source ρ) (exporter : Exporter σ) (o : Order)
    (before : Ports ρ σ) : Except Input.Halt (Visit ρ σ) := do
  let (run, after, calls) ← o.perform source exporter (before, [])
  return ⟨o, before, run.result, calls, after⟩

def visitAll (source : Source ρ) (exporter : Exporter σ) :
    List Order -> Ports ρ σ -> Except Input.Halt (List (Visit ρ σ) × Ports ρ σ)
  | [], ports => .ok ([], ports)
  | o :: orders, ports => do
      let v ← o.visit source exporter ports
      let (visits, final) ← visitAll source exporter orders v.after
      return (v :: visits, final)

end Ports

/-!
## What a run comes to
-/

def Settings.mine (settings : Settings) (reading : Reading) : Except Failure Report :=
  reading.result.bind (Report.ofText settings)

def Report.answered (report : Report) : Except Fault Unit -> Report
  | .ok () => report
  | .error fault => { report with writeFault := some fault }

theorem Survey.writeFault_of_report? {s : Survey} {output : Text} {report : Report}
    (h : s.report? output = some report) : report.writeFault = none := by
  unfold report? at h
  split at h
  · cases h
  · cases h
    rfl

theorem Report.writeFault_of_ofText {settings : Settings} {text : Text} {report : Report}
    (h : ofText settings text = .ok report) : report.writeFault = none := by
  cases hpattern : Pattern.ofIdentifier? settings.identifier with
  | none =>
      rw [ofText, Settings.survey, hpattern] at h
      cases h
  | some p =>
      rw [ofText_eq hpattern] at h
      split at h
      · cases h
      · next made hmade =>
          cases h
          exact Survey.writeFault_of_report? hmade

theorem Settings.writeFault_of_mine {settings : Settings} {reading : Reading} {report : Report}
    (h : settings.mine reading = .ok report) : report.writeFault = none := by
  cases hresult : reading.result with
  | error failure =>
      rw [mine, hresult] at h
      cases h
  | ok text =>
      rw [mine, hresult] at h
      exact Report.writeFault_of_ofText h

section Visits

variable {ρ σ : Type} {source : Source ρ} {exporter : Exporter σ} {o : Order}

def Order.answered (exporter : Exporter σ) (o : Order) (before : Ports ρ σ)
    (taken : Reading × ρ) : Visit ρ σ :=
  match o.wanted.mine taken.1 with
  | .error failure => ⟨o, before, .error failure, [.read], ⟨taken.2, before.exporter⟩⟩
  | .ok report =>
      let saved := exporter o.output report.document before.exporter
      ⟨o, before, .ok (report.answered saved.1),
        [.read, .save o.output report.document saved.1], ⟨taken.2, saved.2⟩⟩

theorem visit_of_rejected (h : o.IsRejected) (before : Ports ρ σ) :
    o.visit source exporter before =
      .ok ⟨o, before, .error (.invalidIdentifier o.identifier), [], before⟩ := by
  rw [Order.visit, Order.perform, Order.settings_of_rejected h]
  rfl

theorem visit_of_accepted (h : ¬ o.IsRejected) (before : Ports ρ σ) :
    o.visit source exporter before =
      (source o.start before.source).map (o.answered exporter before) := by
  rw [Order.visit, Order.perform, Order.settings_of_accepted h]
  unfold Run.perform readPort savePort Order.answered Settings.mine Report.ofText
  simp only [bind, StateT.bind, pure, Except.bind, Except.pure, Except.map]
  cases source o.start before.source with
  | error halt => rfl
  | ok taken =>
      rcases taken with ⟨⟨sizes, result⟩, rest⟩
      cases result with
      | error failure => rfl
      | ok text =>
          simp only []
          cases o.wanted.survey text with
          | error failure => rfl
          | ok s =>
              simp only []
              cases s.report? o.wanted.output with
              | none => rfl
              | some report =>
                  rcases hsaved : exporter o.wanted.output report.document before.exporter
                    with ⟨answer, left⟩
                  have houtput : exporter o.output report.document before.exporter =
                      (answer, left) := hsaved
                  simp only [StateT.bind, bind, Except.bind, hsaved, houtput]
                  cases answer with
                  | ok done => rfl
                  | error fault => rfl

inductive Order.Visits (source : Source ρ) (exporter : Exporter σ) (o : Order)
    (before : Ports ρ σ) : Visit ρ σ -> Prop where
  | rejected (hrejected : o.IsRejected) :
      Visits source exporter o before
        ⟨o, before, .error (.invalidIdentifier o.identifier), [], before⟩
  | failed {reading : Reading} {rest : ρ} {failure : Failure} (haccepted : ¬ o.IsRejected)
      (hread : source o.start before.source = .ok (reading, rest))
      (hmine : o.wanted.mine reading = .error failure) :
      Visits source exporter o before
        ⟨o, before, .error failure, [.read], ⟨rest, before.exporter⟩⟩
  | reported {reading : Reading} {rest : ρ} {report : Report} {answer : Except Fault Unit}
      {left : σ} (haccepted : ¬ o.IsRejected)
      (hread : source o.start before.source = .ok (reading, rest))
      (hmine : o.wanted.mine reading = .ok report)
      (hsave : exporter o.output report.document before.exporter = (answer, left)) :
      Visits source exporter o before
        ⟨o, before, .ok (report.answered answer), [.read, .save o.output report.document answer],
          ⟨rest, left⟩⟩

theorem visits_of_visit {before : Ports ρ σ} {v : Visit ρ σ}
    (h : o.visit source exporter before = .ok v) : o.Visits source exporter before v := by
  by_cases hrejected : o.IsRejected
  · rw [visit_of_rejected hrejected, Except.ok.injEq] at h
    rw [← h]
    exact .rejected hrejected
  · rw [visit_of_accepted hrejected] at h
    cases hread : source o.start before.source with
    | error halt =>
        rw [hread] at h
        cases h
    | ok taken =>
        rw [hread, Except.map, Except.ok.injEq, Order.answered] at h
        cases hmine : o.wanted.mine taken.1 with
        | error failure =>
            rw [hmine] at h
            rw [← h]
            exact .failed hrejected hread hmine
        | ok report =>
            rw [hmine] at h
            rw [← h]
            exact .reported hrejected hread hmine rfl

theorem visit_of_visits {before : Ports ρ σ} {v : Visit ρ σ}
    (h : o.Visits source exporter before v) : o.visit source exporter before = .ok v := by
  cases h with
  | rejected hrejected => exact visit_of_rejected hrejected before
  | failed haccepted hread hmine =>
      rw [visit_of_accepted haccepted, hread, Except.map, Order.answered, hmine]
  | reported haccepted hread hmine hsave =>
      rw [visit_of_accepted haccepted, hread, Except.map, Order.answered, hmine]
      simp only [hsave]

theorem exists_visit_textSource (haccepted : ¬ o.IsRejected) {p : Pattern}
    (hp : Pattern.ofIdentifier? o.identifier = some p) {text : Text} (hraws : p.raws text ≠ [])
    (exporter : Exporter σ) :
    exists report : Report, Report.ofText o.wanted text = .ok report ∧
      forall (before after : σ) (answer : Except Fault Unit),
        exporter o.output report.document before = (answer, after) ->
          o.visit textSource exporter ⟨text, before⟩ =
            .ok ⟨o, ⟨text, before⟩, .ok (report.answered answer),
              [.read, .save o.output report.document answer], ⟨text, after⟩⟩ := by
  have hwanted : Pattern.ofIdentifier? o.wanted.identifier = some p := hp
  rcases Report.exists_ofText_of_ne_nil hwanted hraws with ⟨report, hreport, _⟩
  refine ⟨report, hreport, ?_⟩
  intro before after answer hsave
  exact visit_of_visits (.reported haccepted rfl hreport hsave)

theorem Order.Visits.of_rejected {before : Ports ρ σ} {v : Visit ρ σ}
    (h : o.Visits source exporter before v) (hrejected : o.IsRejected) :
    v.result = .error (.invalidIdentifier o.identifier) ∧ v.calls = [] ∧ v.after = before := by
  cases h with
  | rejected _ => exact ⟨rfl, rfl, rfl⟩
  | failed haccepted _ _ => exact absurd hrejected haccepted
  | reported haccepted _ _ _ => exact absurd hrejected haccepted

/-!
## What several runs come to
-/

theorem visitAll_nil (source : Source ρ) (exporter : Exporter σ) (ports : Ports ρ σ) :
    visitAll source exporter [] ports = .ok ([], ports) := rfl

theorem visitAll_cons (source : Source ρ) (exporter : Exporter σ) (o : Order)
    (orders : List Order) (ports : Ports ρ σ) :
    visitAll source exporter (o :: orders) ports =
      (o.visit source exporter ports).bind fun v =>
        (visitAll source exporter orders v.after).map fun later =>
          (v :: later.1, later.2) := by
  rw [visitAll]
  cases o.visit source exporter ports with
  | error halt => rfl
  | ok v =>
      simp only [bind, Except.bind]
      cases visitAll source exporter orders v.after <;> rfl

theorem visitAll_cons_eq_ok_iff {orders : List Order} {ports final : Ports ρ σ}
    {visits : List (Visit ρ σ)} :
    visitAll source exporter (o :: orders) ports = .ok (visits, final) <->
      exists v later, o.visit source exporter ports = .ok v ∧
        visitAll source exporter orders v.after = .ok (later, final) ∧ visits = v :: later := by
  rw [visitAll_cons]
  constructor
  · intro h
    cases hvisit : o.visit source exporter ports with
    | error halt =>
        rw [hvisit] at h
        cases h
    | ok v =>
        rw [hvisit, Except.bind] at h
        cases hlater : visitAll source exporter orders v.after with
        | error halt =>
            rw [hlater] at h
            cases h
        | ok later =>
            rw [hlater] at h
            cases h
            exact ⟨v, later.1, rfl, hlater, rfl⟩
  · intro h
    rcases h with ⟨v, later, hvisit, hlater, rfl⟩
    rw [hvisit, Except.bind, hlater]
    rfl

theorem visitAll_cons_of_visit {orders : List Order} {ports final : Ports ρ σ} {v : Visit ρ σ}
    {later : List (Visit ρ σ)} (hvisit : o.visit source exporter ports = .ok v)
    (hlater : visitAll source exporter orders v.after = .ok (later, final)) :
    visitAll source exporter (o :: orders) ports = .ok (v :: later, final) :=
  visitAll_cons_eq_ok_iff.mpr ⟨v, later, hvisit, hlater, rfl⟩

theorem exists_visit (exporter : Exporter σ) (o : Order) (before : Ports ρ σ)
    (hreturns : o.IsRejected ∨ exists taken, source o.start before.source = .ok taken) :
    exists v, o.visit source exporter before = .ok v := by
  by_cases hrejected : o.IsRejected
  · exact ⟨_, visit_of_rejected hrejected before⟩
  · rcases hreturns.resolve_left hrejected with ⟨taken, htaken⟩
    rw [visit_of_accepted hrejected, htaken]
    exact ⟨_, rfl⟩

theorem exists_visitAll (hreturns : forall start s, exists taken, source start s = .ok taken)
    (exporter : Exporter σ) (orders : List Order) (ports : Ports ρ σ) :
    exists visits final, visitAll source exporter orders ports = .ok (visits, final) := by
  induction orders generalizing ports with
  | nil => exact ⟨[], ports, rfl⟩
  | cons o orders ih =>
      rcases exists_visit exporter o ports (Or.inr (hreturns o.start ports.source))
        with ⟨v, hv⟩
      rcases ih v.after with ⟨later, final, hlater⟩
      exact ⟨v :: later, final, visitAll_cons_of_visit hv hlater⟩

/-- Visits one after another: each one finds the ports as the one before it left them. -/
inductive Visited (source : Source ρ) (exporter : Exporter σ) :
    Ports ρ σ -> List (Visit ρ σ) -> Ports ρ σ -> Prop where
  | nil {ports : Ports ρ σ} : Visited source exporter ports [] ports
  | cons {v : Visit ρ σ} {visits : List (Visit ρ σ)} {before final : Ports ρ σ}
      (hvisit : v.order.Visits source exporter before v)
      (hlater : Visited source exporter v.after visits final) :
      Visited source exporter before (v :: visits) final

theorem order_of_visits {before : Ports ρ σ} {v : Visit ρ σ}
    (h : o.Visits source exporter before v) : v.order = o ∧ v.before = before := by
  cases h <;> exact ⟨rfl, rfl⟩

theorem visited_of_visitAll {orders : List Order} {ports final : Ports ρ σ}
    {visits : List (Visit ρ σ)}
    (h : visitAll source exporter orders ports = .ok (visits, final)) :
    Visited source exporter ports visits final ∧ visits.map Visit.order = orders := by
  induction orders generalizing ports visits with
  | nil =>
      cases h
      exact ⟨.nil, rfl⟩
  | cons o orders ih =>
      rcases visitAll_cons_eq_ok_iff.mp h with ⟨v, later, hvisit, hlater, rfl⟩
      have hv := visits_of_visit hvisit
      rcases ih hlater with ⟨hvisited, horders⟩
      have horder : v.order = o := (order_of_visits hv).1
      rw [List.map_cons, horders, horder]
      exact ⟨.cons (horder.symm ▸ hv) hvisited, rfl⟩

theorem visits_of_mem {ports final : Ports ρ σ} {visits : List (Visit ρ σ)}
    (h : Visited source exporter ports visits final) {v : Visit ρ σ} (hv : v ∈ visits) :
    v.order.Visits source exporter v.before v := by
  induction h with
  | nil => cases hv
  | cons hvisit _ ih =>
      rcases List.mem_cons.mp hv with rfl | hlater
      · exact (order_of_visits hvisit).2 ▸ hvisit
      · exact ih hlater

theorem visited_behind {ports final : Ports ρ σ} {earlier later : List (Visit ρ σ)}
    {v : Visit ρ σ} (h : Visited source exporter ports (earlier ++ v :: later) final) :
    Visited source exporter v.after later final := by
  induction earlier generalizing ports with
  | nil =>
      cases h with
      | cons _ hlater => exact hlater
  | cons u earlier ih =>
      cases h with
      | cons _ hlater => exact ih hlater

/-!
## What no reading changes
-/

section Kept

variable {α : Type} {kept : ρ -> α}

theorem kept_of_visits
    (hkept : forall start s reading rest, source start s = .ok (reading, rest) ->
      kept rest = kept s)
    {before : Ports ρ σ} {v : Visit ρ σ} (h : o.Visits source exporter before v) :
    kept v.after.source = kept before.source := by
  cases h with
  | rejected _ => rfl
  | failed _ hread _ => exact hkept _ _ _ _ hread
  | reported _ hread _ _ => exact hkept _ _ _ _ hread

theorem kept_of_visited
    (hkept : forall start s reading rest, source start s = .ok (reading, rest) ->
      kept rest = kept s)
    {ports final : Ports ρ σ} {visits : List (Visit ρ σ)}
    (h : Visited source exporter ports visits final) {v : Visit ρ σ} (hv : v ∈ visits) :
    kept v.before.source = kept ports.source := by
  induction h with
  | nil => cases hv
  | cons hvisit _ ih =>
      rcases List.mem_cons.mp hv with rfl | hlater
      · rw [(order_of_visits hvisit).2]
      · rw [ih hlater, kept_of_visits hkept hvisit]

end Kept

end Visits

end CallChains
