import CallChains.Proofs.RawMatch.Statement

/-!
# Scanning from left to right

`Finds` says what a scan does without saying how: it passes a character where no
statement begins, and takes the longest statement where one does.  Scanning with a
count of covered characters does exactly this, and nothing else finds the same
text in another way.  All that is known about the matches of a text is proved by
induction on `Finds`.
-/

namespace CallChains

namespace RawMatch

def stop (m : RawMatch) : Nat := m.start + m.text.length

/-- The matches of a lead in a text that stands behind `position` characters. -/
inductive Finds (lead : Text) : Nat -> Text -> List RawMatch -> Prop where
  | finish (position : Nat) : Finds lead position [] []
  | pass {position : Nat} {c : Char} {rest : Text} {found : List RawMatch}
      (hnone : ¬ Begins lead (c :: rest))
      (hrest : Finds lead (position + 1) rest found) :
      Finds lead position (c :: rest) found
  | take {position : Nat} {raw rest : Text} {found : List RawMatch}
      (hraw : IsStatement lead raw) (hlast : ';' ∉ rest.firstLine)
      (hrest : Finds lead (position + raw.length) rest found) :
      Finds lead position (raw ++ rest) (⟨position, raw⟩ :: found)

/-!
## The scan as a relation
-/

theorem scan_eq_append (lead : Text) (position covered : Nat) (found : List RawMatch)
    (text : Text) :
    scan lead position covered found text =
      found.reverse ++ scan lead position covered [] text := by
  induction text generalizing position covered found with
  | nil => simp [scan]
  | cons c rest ih =>
      cases covered with
      | succ covered => exact ih (position + 1) covered found
      | zero =>
          simp only [scan]
          cases lengthAt? lead (c :: rest) with
          | none => exact ih (position + 1) 0 found
          | some length =>
              show scan lead (position + 1) (length - 1)
                  (⟨position, (c :: rest).take length⟩ :: found) rest =
                found.reverse ++ scan lead (position + 1) (length - 1)
                  [⟨position, (c :: rest).take length⟩] rest
              rw [ih _ _ (_ :: found), ih _ _ [_]]
              simp

theorem scan_covered (lead : Text) (position : Nat) (raw rest : Text) :
    scan lead position raw.length [] (raw ++ rest) =
      scan lead (position + raw.length) 0 [] rest := by
  induction raw generalizing position with
  | nil => rfl
  | cons c raw ih =>
      rw [List.length_cons, List.cons_append]
      simp only [scan]
      rw [ih (position + 1), Nat.add_assoc, Nat.add_comm 1]

theorem scan_pass {lead rest : Text} {c : Char} (h : ¬ Begins lead (c :: rest))
    (position : Nat) :
    scan lead position 0 [] (c :: rest) = scan lead (position + 1) 0 [] rest := by
  simp only [scan]
  rw [lengthAt?_eq_none_iff.mpr h]

theorem scan_take {lead raw rest : Text} (hraw : IsStatement lead raw)
    (hlast : ';' ∉ rest.firstLine) (position : Nat) :
    scan lead position 0 [] (raw ++ rest) =
      ⟨position, raw⟩ :: scan lead (position + raw.length) 0 [] rest := by
  have hlength := lengthAt?_append hraw hlast
  cases raw with
  | nil => exact absurd rfl (statement_ne_nil hraw)
  | cons c raw =>
      rw [List.cons_append] at hlength ⊢
      simp only [scan]
      rw [hlength]
      show scan lead (position + 1) raw.length
        [⟨position, (c :: (raw ++ rest)).take (raw.length + 1)⟩] (raw ++ rest) = _
      rw [scan_eq_append, scan_covered, List.take_succ_cons, List.take_left, List.length_cons,
        Nat.add_assoc, Nat.add_comm 1]
      rfl

theorem finds_scan (lead : Text) (position : Nat) (text : Text) :
    Finds lead position text (scan lead position 0 [] text) := by
  by_cases hbegins : Begins lead text
  · rcases exists_longest hbegins with ⟨raw, rest, htext, hraw, hlast⟩
    -- What is left behind a statement is shorter, because a statement is not empty.
    have hshorter : rest.length < text.length := by
      have hpos := length_statement_pos hraw
      rw [htext, List.length_append]
      omega
    rw [htext, scan_take hraw hlast]
    exact Finds.take hraw hlast (finds_scan lead (position + raw.length) rest)
  · cases text with
    | nil => exact Finds.finish position
    | cons c rest =>
        rw [scan_pass hbegins]
        exact Finds.pass hbegins (finds_scan lead (position + 1) rest)
termination_by text.length
decreasing_by
  · exact hshorter
  · exact Nat.lt_succ_self rest.length

theorem finds_iff {lead text : Text} {position : Nat} {found : List RawMatch} :
    Finds lead position text found <-> scan lead position 0 [] text = found := by
  constructor
  · intro h
    induction h with
    | finish position => rfl
    | pass hnone _ ih => rw [scan_pass hnone, ih]
    | take hraw hlast _ ih => rw [scan_take hraw hlast, ih]
  · intro h
    rw [← h]
    exact finds_scan lead position text

theorem finds_findAll (p : Pattern) (text : Text) :
    Finds p.lead 0 text (p.findAll text) :=
  finds_scan p.lead 0 text

/-!
## Where the matches stand
-/

theorem position_le_start {lead text : Text} {position : Nat} {found : List RawMatch}
    (h : Finds lead position text found) {m : RawMatch} (hm : m ∈ found) :
    position <= m.start := by
  induction h with
  | finish position => cases hm
  | pass _ _ ih => exact Nat.le_of_succ_le (ih hm)
  | take _ _ _ ih =>
      cases hm with
      | head => exact Nat.le_refl _
      | tail _ hm => exact Nat.le_trans (Nat.le_add_right _ _) (ih hm)

theorem pairwise_apart {lead text : Text} {position : Nat} {found : List RawMatch}
    (h : Finds lead position text found) :
    found.Pairwise fun m next => m.start < next.start ∧ m.stop <= next.start := by
  induction h with
  | finish position => exact List.Pairwise.nil
  | pass _ _ ih => exact ih
  | take hraw _ hrest ih =>
      rw [List.pairwise_cons]
      refine ⟨?_, ih⟩
      intro next hnext
      have hstop := position_le_start hrest hnext
      have hpos := length_statement_pos hraw
      exact ⟨Nat.lt_of_lt_of_le (Nat.lt_add_of_pos_right hpos) hstop, hstop⟩

theorem exists_around {lead text : Text} {position : Nat} {found : List RawMatch}
    (h : Finds lead position text found) {m : RawMatch} (hm : m ∈ found) :
    exists before after : Text,
      text = before ++ (m.text ++ after) ∧ m.start = position + before.length ∧
        IsStatement lead m.text ∧ ';' ∉ after.firstLine := by
  induction h with
  | finish position => cases hm
  | @pass position c rest found _ _ ih =>
      rcases ih hm with ⟨before, after, hrest, hstart, hraw, hafter⟩
      refine ⟨c :: before, after, ?_, ?_, hraw, hafter⟩
      · rw [hrest, List.cons_append]
      · rw [hstart, List.length_cons]
        omega
  | @take position raw rest found hraw hlast _ ih =>
      cases hm with
      | head => exact ⟨[], rest, rfl, rfl, hraw, hlast⟩
      | tail _ hm =>
          rcases ih hm with ⟨before, after, hrest, hstart, hother, hafter⟩
          refine ⟨raw ++ before, after, ?_, ?_, hother, hafter⟩
          · rw [hrest, List.append_assoc]
          · rw [hstart, List.length_append]
            omega

/-- Where a statement begins there is a match, or an earlier one covers the place. -/
theorem exists_covering {lead before after : Text} {position : Nat} {found : List RawMatch}
    (h : Finds lead position (before ++ after) found) (hbegins : Begins lead after) :
    exists m : RawMatch, m ∈ found ∧ m.start <= position + before.length ∧
      position + before.length < m.stop := by
  generalize htext : before ++ after = text at h
  induction h generalizing before with
  | finish position =>
      rw [List.append_eq_nil_iff] at htext
      rcases hbegins with ⟨body, rest, hafter, _⟩
      rw [htext.2] at hafter
      simp at hafter
  | @pass position c rest found hnone _ ih =>
      cases before with
      | nil =>
          rw [List.nil_append] at htext
          rw [htext] at hbegins
          exact absurd hbegins hnone
      | cons d before =>
          rw [List.cons_append] at htext
          rcases ih (List.cons_eq_cons.mp htext).2 with ⟨m, hm, hstart, hstop⟩
          refine ⟨m, hm, ?_, ?_⟩
          · rw [List.length_cons]
            omega
          · rw [List.length_cons]
            omega
  | @take position raw rest found _ _ _ ih =>
      by_cases hinside : before.length < raw.length
      · refine ⟨⟨position, raw⟩, List.mem_cons_self, ?_, ?_⟩
        · exact Nat.le_add_right _ _
        · exact Nat.add_lt_add_left hinside position
      · have hwithin : raw <+: before :=
          List.prefix_of_prefix_length_le ⟨rest, rfl⟩ ⟨after, htext⟩
            (Nat.le_of_not_lt hinside)
        rcases hwithin with ⟨back, rfl⟩
        rw [List.append_assoc] at htext
        rcases ih (List.append_cancel_left htext) with ⟨m, hm, hstart, hstop⟩
        refine ⟨m, List.mem_cons_of_mem _ hm, ?_, ?_⟩
        · rw [List.length_append]
          omega
        · rw [List.length_append]
          omega

end RawMatch

end CallChains
