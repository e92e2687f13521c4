import CallChains.Proofs.Run.Orders

/-!
# Runs over one stream

A stream can be read once.  The first accepted order reads it, and whatever comes of that
the stream is used up; all later runs have no input.

Main statements: behind the first accepted run every accepted one ends without input, so at
most one document is saved; and the runs of a sequence all return if the one read does.
-/

namespace CallChains

namespace Input

theorem Stream.read_used {s : Stream} (h : s.script = none) (now : Instant) :
    s.read now = .ok (⟨[], .error (.noInput s.timeout.reportedMillis)⟩, s) := by
  rw [Stream.read, h]

theorem Stream.used_of_read (now : Instant) (s : Stream) (reading : Reading) (next : Stream)
    (h : s.read now = .ok (reading, next)) :
    next.script = none ∧ next.timeout = s.timeout := by
  unfold Stream.read at h
  split at h
  · next hused =>
      cases h
      exact ⟨hused, rfl⟩
  · next script _ =>
      split at h
      · cases h
      · simp only [bind, Except.bind] at h
        split at h
        · cases h
        · cases h
          exact ⟨rfl, rfl⟩

theorem Stream.timeout_of_read (now : Instant) (s : Stream) (reading : Reading) (next : Stream)
    (h : s.read now = .ok (reading, next)) : next.timeout = s.timeout :=
  (used_of_read now s reading next h).2

end Input

def Call.isSave : Call -> Bool
  | .read => false
  | .save _ _ _ => true

section Streams

open Input

variable {σ : Type} {exporter : Exporter σ}

/-!
## One run
-/

section Visit

variable {o : Order} {before : Ports Stream σ} {v : Visit Stream σ}

theorem used_of_accepted (h : o.Visits Stream.read exporter before v)
    (haccepted : ¬ o.IsRejected) : v.after.source.script = none := by
  cases h with
  | rejected hrejected => exact absurd hrejected haccepted
  | failed _ hread _ => exact (Stream.used_of_read _ _ _ _ hread).1
  | reported _ hread _ _ => exact (Stream.used_of_read _ _ _ _ hread).1

theorem saves_of_visits (h : o.Visits Stream.read exporter before v) :
    v.calls.countP Call.isSave <= 1 := by
  cases h with
  | rejected _ => exact Nat.zero_le 1
  | failed _ _ _ => exact Nat.zero_le 1
  | reported _ _ _ _ => exact Nat.le_refl 1

/-- A used stream stays as it is and gives nothing to anyone. -/
theorem visits_used (h : o.Visits Stream.read exporter before v)
    (hused : before.source.script = none) :
    v.after.source = before.source ∧ v.calls.countP Call.isSave = 0 ∧
      (¬ o.IsRejected ->
        v.result = .error (.noInput before.source.timeout.reportedMillis)) := by
  cases h with
  | rejected hrejected => exact ⟨rfl, rfl, fun haccepted => absurd hrejected haccepted⟩
  | failed _ hread hmine =>
      rw [Stream.read_used hused] at hread
      cases hread
      cases hmine
      exact ⟨rfl, rfl, fun _ => rfl⟩
  | reported _ hread hmine _ =>
      rw [Stream.read_used hused] at hread
      cases hread
      cases hmine

end Visit

/-!
## Any number of runs
-/

section Visited

variable {ports final : Ports Stream σ} {visits : List (Visit Stream σ)}

theorem visited_used (h : Visited Stream.read exporter ports visits final)
    (hused : ports.source.script = none) :
    (visits.flatMap Visit.calls).countP Call.isSave = 0 ∧
      forall v, v ∈ visits -> ¬ v.order.IsRejected ->
        v.result = .error (.noInput ports.source.timeout.reportedMillis) := by
  induction h with
  | nil => exact ⟨rfl, List.forall_mem_nil _⟩
  | cons hvisit _ ih =>
      rcases visits_used hvisit hused with ⟨hkeep, hsaves, hresult⟩
      rcases ih (by rw [hkeep, hused]) with ⟨hlater, hresults⟩
      rw [hkeep] at hresults
      constructor
      · rw [List.flatMap_cons, List.countP_append, hsaves, hlater]
      · exact List.forall_mem_cons.mpr ⟨hresult, hresults⟩

theorem noInput_behind {earlier later : List (Visit Stream σ)} {first : Visit Stream σ}
    (h : Visited Stream.read exporter ports (earlier ++ first :: later) final)
    (haccepted : ¬ first.order.IsRejected) :
    first.after.source.script = none ∧
      forall v, v ∈ later -> ¬ v.order.IsRejected ->
        v.result = .error (.noInput ports.source.timeout.reportedMillis) := by
  have hfirst : first ∈ earlier ++ first :: later := by simp
  have hvisit := visits_of_mem h hfirst
  have hused := used_of_accepted hvisit haccepted
  refine ⟨hused, ?_⟩
  rw [← kept_of_visited Stream.timeout_of_read h hfirst,
    ← kept_of_visits Stream.timeout_of_read hvisit]
  exact (visited_used (visited_behind h) hused).2

theorem saves_le_one (h : Visited Stream.read exporter ports visits final) :
    (visits.flatMap Visit.calls).countP Call.isSave <= 1 := by
  induction h with
  | nil => exact Nat.zero_le 1
  | @cons v visits before final hvisit hlater ih =>
      rw [List.flatMap_cons, List.countP_append]
      by_cases hrejected : v.order.IsRejected
      · rw [(hvisit.of_rejected hrejected).2.1]
        simpa using ih
      · rw [(visited_used hlater (used_of_accepted hvisit hrejected)).1]
        exact saves_of_visits hvisit

end Visited

/-!
## Returning
-/

theorem exists_visitAll_used (exporter : Exporter σ) (orders : List Order)
    {ports : Ports Stream σ}
    (hused : ports.source.script = none) :
    exists visits final,
      visitAll Stream.read exporter orders ports = .ok (visits, final) := by
  induction orders generalizing ports with
  | nil => exact ⟨[], ports, rfl⟩
  | cons o orders ih =>
      rcases exists_visit exporter o ports
        (Or.inr ⟨_, Stream.read_used hused o.start⟩) with ⟨v, hv⟩
      have hkeep := (visits_used (visits_of_visit hv) hused).1
      have hafter : v.after.source.script = none := by rw [hkeep, hused]
      rcases ih hafter with ⟨later, final, hlater⟩
      exact ⟨v :: later, final, visitAll_cons_eq_ok_iff.mpr ⟨v, later, hv, hlater, rfl⟩⟩

theorem exists_visitAll_iff (orders : List Order) (ports : Ports Stream σ) :
    (exists visits final,
        visitAll Stream.read exporter orders ports = .ok (visits, final)) <->
      forall first, orders.find? (fun o => !decide o.IsRejected) = some first ->
        exists taken, ports.source.read first.start = .ok taken := by
  induction orders with
  | nil => simp [visitAll]
  | cons o orders ih =>
      by_cases hrejected : o.IsRejected
      · have hv : o.visit Stream.read exporter ports = .ok _ := visit_of_rejected hrejected ports
        rw [List.find?_cons_of_neg (by simpa using hrejected), ← ih]
        constructor
        · intro h
          rcases h with ⟨visits, final, h⟩
          rcases visitAll_cons_eq_ok_iff.mp h with ⟨v, later, hvisit, hlater, _⟩
          rw [hv] at hvisit
          cases hvisit
          exact ⟨later, final, hlater⟩
        · intro h
          rcases h with ⟨later, final, hlater⟩
          exact ⟨_, final, visitAll_cons_eq_ok_iff.mpr ⟨_, later, hv, hlater, rfl⟩⟩
      · rw [List.find?_cons_of_pos (by simpa using hrejected)]
        constructor
        · intro h first hfirst
          cases hfirst
          rcases h with ⟨visits, final, h⟩
          rcases visitAll_cons_eq_ok_iff.mp h with ⟨v, later, hvisit, _, _⟩
          rw [visit_of_accepted hrejected] at hvisit
          cases hread : ports.source.read o.start with
          | error halt =>
              rw [hread] at hvisit
              cases hvisit
          | ok taken => exact ⟨taken, rfl⟩
        · intro h
          rcases exists_visit exporter o ports (Or.inr (h o rfl)) with ⟨v, hv⟩
          have hused := used_of_accepted (visits_of_visit hv) hrejected
          rcases exists_visitAll_used exporter orders hused with ⟨later, final, hlater⟩
          exact ⟨v :: later, final, visitAll_cons_eq_ok_iff.mpr ⟨v, later, hv, hlater, rfl⟩⟩

end Streams

end CallChains
