import CallChains.Proofs.Text.Lines
import CallChains.RawMatch
import Mathlib.Data.List.Infix

/-!
# Statements of a lead

A statement is a lead with a text behind it that stays on its line and ends in a
semicolon.  At a place where a statement begins there may be several, one for each
semicolon on the rest of the line; the match taken there is the longest one, which
is singled out by what follows it.  The length of that match is what `lengthAt?`
computes.
-/

namespace CallChains

namespace RawMatch

def IsStatement (lead text : Text) : Prop :=
  exists body : Text, text = lead ++ (body ++ [';']) ∧ '\n' ∉ body

/-- A statement of the lead begins at the front of the text. -/
def Begins (lead text : Text) : Prop :=
  exists body rest : Text, text = lead ++ (body ++ ';' :: rest) ∧ '\n' ∉ body

theorem begins_append {lead raw : Text} (h : IsStatement lead raw) (rest : Text) :
    Begins lead (raw ++ rest) := by
  rcases h with ⟨body, rfl, hbody⟩
  exact ⟨body, rest, by simp, hbody⟩

theorem begins_iff_mem_firstLine {lead text : Text} :
    Begins lead text <-> exists tail : Text, text = lead ++ tail ∧ ';' ∈ tail.firstLine := by
  constructor
  · intro hbody
    rcases hbody with ⟨body, rest, rfl, hbody⟩
    exact ⟨body ++ ';' :: rest, rfl,
      (Text.mem_firstLine_iff (by decide)).mpr ⟨body, rest, rfl, hbody⟩⟩
  · intro htail
    rcases htail with ⟨tail, rfl, htail⟩
    rcases (Text.mem_firstLine_iff (by decide)).mp htail with ⟨body, rest, rfl, hbody⟩
    exact ⟨body, rest, rfl, hbody⟩

theorem exists_longest {lead text : Text} (h : Begins lead text) :
    exists raw rest : Text,
      text = raw ++ rest ∧ IsStatement lead raw ∧ ';' ∉ rest.firstLine := by
  rcases begins_iff_mem_firstLine.mp h with ⟨tail, rfl, htail⟩
  rcases Text.exists_last_of_mem_firstLine htail with ⟨body, rest, rfl, hbody, hrest⟩
  exact ⟨lead ++ (body ++ [';']), rest, by simp, ⟨body, rfl, hbody⟩, hrest⟩

theorem statement_ne_nil {lead raw : Text} (h : IsStatement lead raw) : raw ≠ [] := by
  rcases h with ⟨body, rfl, _⟩
  simp

theorem length_statement_pos {lead raw : Text} (h : IsStatement lead raw) :
    0 < raw.length :=
  List.length_pos_iff.mpr (statement_ne_nil h)

theorem newline_notMem_statement {lead raw : Text} (hlead : '\n' ∉ lead)
    (h : IsStatement lead raw) : '\n' ∉ raw := by
  rcases h with ⟨body, rfl, hbody⟩
  simp [hlead, hbody]

/-!
## The reach of a line
-/

theorem reachFrom_of_notMem {text : Text} (h : ';' ∉ text.firstLine)
    (length reached : Nat) : reachFrom length reached text = reached := by
  induction text generalizing length with
  | nil => rfl
  | cons c rest ih =>
      unfold reachFrom
      split
      · rfl
      · next hc =>
          rw [Text.firstLine_cons_of_ne hc, List.mem_cons, not_or] at h
          rw [if_neg (Ne.symm h.1)]
          exact ih h.2 (length + 1)

theorem reachFrom_of_last {body rest : Text} (hbody : '\n' ∉ body)
    (hrest : ';' ∉ rest.firstLine) (length reached : Nat) :
    reachFrom length reached (body ++ ';' :: rest) = length + body.length + 1 := by
  induction body generalizing length reached with
  | nil =>
      rw [List.nil_append]
      unfold reachFrom
      rw [if_neg (by decide), if_pos rfl, reachFrom_of_notMem hrest]
      rfl
  | cons c body ih =>
      rw [List.mem_cons, not_or] at hbody
      rw [List.cons_append]
      unfold reachFrom
      rw [if_neg (Ne.symm hbody.1), ih hbody.2, List.length_cons]
      omega

theorem reach_eq_zero_iff {text : Text} : reach text = 0 <-> ';' ∉ text.firstLine := by
  constructor
  · intro hzero hmem
    rcases Text.exists_last_of_mem_firstLine hmem with ⟨body, rest, rfl, hbody, hrest⟩
    unfold reach at hzero
    rw [reachFrom_of_last hbody hrest] at hzero
    omega
  · intro h
    exact reachFrom_of_notMem h 0 0

/-!
## The length of a match
-/

theorem lengthAt?_eq_none_iff {lead text : Text} :
    lengthAt? lead text = none <-> ¬ Begins lead text := by
  unfold lengthAt?
  cases hfront : lead.isPrefixOf? text with
  | none =>
      have habsent : ¬ Begins lead text := by
        intro hbegins
        rcases hbegins with ⟨body, rest, htext, _⟩
        have hsome := List.isPrefixOf?_eq_some_iff_append_eq.mpr htext.symm
        rw [hfront] at hsome
        cases hsome
      simp [habsent]
  | some tail =>
      have htext : lead ++ tail = text := List.isPrefixOf?_eq_some_iff_append_eq.mp hfront
      have hbegins : Begins lead text <-> ';' ∈ Text.firstLine tail := by
        rw [begins_iff_mem_firstLine, ← htext]
        constructor
        · intro hlonger
          rcases hlonger with ⟨other, hother, hmem⟩
          rwa [List.append_cancel_left hother]
        · intro hmem
          exact ⟨tail, rfl, hmem⟩
      rw [hbegins, ← reach_eq_zero_iff]
      simp

theorem lengthAt?_append {lead raw rest : Text} (h : IsStatement lead raw)
    (hrest : ';' ∉ rest.firstLine) : lengthAt? lead (raw ++ rest) = some raw.length := by
  rcases h with ⟨body, rfl, hbody⟩
  have hfront :
      lead.isPrefixOf? (lead ++ (body ++ [';']) ++ rest) = some (body ++ ';' :: rest) := by
    rw [List.isPrefixOf?_eq_some_iff_append_eq]
    simp
  have hreach : reach (body ++ ';' :: rest) = body.length + 1 := by
    unfold reach
    rw [reachFrom_of_last hbody hrest, Nat.zero_add]
  unfold lengthAt?
  rw [hfront]
  show (if reach (body ++ ';' :: rest) = 0 then none
    else some (lead.length + reach (body ++ ';' :: rest))) = _
  rw [hreach]
  simp

end RawMatch

end CallChains
