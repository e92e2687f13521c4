import CallChains.Proofs.RawMatch.Scanning

/-!
# Matches line by line

With a lead that has no newline no match crosses the end of a line, and none hides
behind one: the matches of two texts with a newline between them are those of the
first and then those of the second.  In a single line there is at most one match,
since it reaches the last semicolon, and it stands at the leftmost lead.
-/

namespace CallChains

namespace RawMatch

def HasStatement (lead text : Text) : Prop :=
  exists before after : Text, text = before ++ after ∧ Begins lead after

def later (count : Nat) (m : RawMatch) : RawMatch := ⟨m.start + count, m.text⟩

theorem text_comp_later (count : Nat) : text ∘ later count = text := rfl

theorem ne_nil_iff_hasStatement {lead text : Text} {position : Nat} {found : List RawMatch}
    (h : Finds lead position text found) : found ≠ [] <-> HasStatement lead text := by
  constructor
  · intro hne
    rcases List.exists_mem_of_ne_nil found hne with ⟨m, hm⟩
    rcases exists_around h hm with ⟨before, after, htext, _, hraw, _⟩
    exact ⟨before, m.text ++ after, htext, begins_append hraw after⟩
  · intro hhas
    rcases hhas with ⟨before, after, rfl, hbegins⟩
    rcases exists_covering h hbegins with ⟨m, hm, _⟩
    exact List.ne_nil_of_mem hm

theorem finds_later {lead text : Text} {position : Nat} {found : List RawMatch}
    (h : Finds lead position text found) (count : Nat) :
    Finds lead (position + count) text (found.map (later count)) := by
  induction h with
  | finish position => exact Finds.finish (position + count)
  | @pass position c rest found hnone _ ih =>
      apply Finds.pass hnone
      rwa [Nat.add_right_comm]
  | @take position raw rest found hraw hlast _ ih =>
      rw [List.map_cons]
      apply Finds.take hraw hlast
      rwa [Nat.add_right_comm]

/-!
## Two texts with a newline between them
-/

theorem prefix_of_newlineFree {raw text other : Text} (hraw : '\n' ∉ raw)
    (h : raw <+: text ++ '\n' :: other) : raw <+: text := by
  have htext : text ++ ['\n'] <+: text ++ '\n' :: other := ⟨other, by simp⟩
  rcases Nat.lt_or_ge text.length raw.length with hlonger | hshorter
  · have hnewline : text ++ ['\n'] <+: raw :=
      List.prefix_of_prefix_length_le htext h (by simpa using Nat.succ_le_of_lt hlonger)
    exact absurd (hnewline.subset (by simp)) hraw
  · exact List.prefix_of_prefix_length_le h (List.prefix_append text _) hshorter

theorem begins_append_newline_iff {lead : Text} (hlead : '\n' ∉ lead) (text other : Text) :
    Begins lead (text ++ '\n' :: other) <-> Begins lead text := by
  constructor
  · intro hbegins
    rcases hbegins with ⟨body, rest, htext, hbody⟩
    have hraw : IsStatement lead (lead ++ (body ++ [';'])) := ⟨body, rfl, hbody⟩
    have hwithin : lead ++ (body ++ [';']) <+: text ++ '\n' :: other := by
      rw [htext]
      exact ⟨rest, by simp⟩
    rcases prefix_of_newlineFree (newline_notMem_statement hlead hraw) hwithin with ⟨back, rfl⟩
    exact begins_append hraw back
  · intro hbegins
    rcases hbegins with ⟨body, rest, rfl, hbody⟩
    exact ⟨body, rest ++ '\n' :: other, by simp, hbody⟩

theorem finds_append_newline {lead text other : Text} {position : Nat}
    {found next : List RawMatch} (hlead : '\n' ∉ lead) (h : Finds lead position text found)
    (hother : Finds lead (position + text.length + 1) other next) :
    Finds lead position (text ++ '\n' :: other) (found ++ next) := by
  induction h with
  | finish position =>
      apply Finds.pass
      · rw [← List.nil_append ('\n' :: other), begins_append_newline_iff hlead]
        intro hbegins
        rcases hbegins with ⟨body, rest, hnil, _⟩
        simp at hnil
      · exact hother
  | @pass position c rest found hnone _ ih =>
      rw [List.cons_append]
      apply Finds.pass
      · rwa [← List.cons_append, begins_append_newline_iff hlead]
      · apply ih
        rwa [Nat.add_right_comm position]
  | @take position raw rest found hraw hlast _ ih =>
      rw [List.append_assoc, List.cons_append]
      apply Finds.take hraw
      · rwa [Text.firstLine_append_newline]
      · apply ih
        rwa [Nat.add_assoc position, ← List.length_append]

end RawMatch

namespace Pattern

open RawMatch

theorem findAll_append_newline {p : Pattern} (hlead : '\n' ∉ p.lead) (text other : Text) :
    p.findAll (text ++ '\n' :: other) =
      p.findAll text ++ (p.findAll other).map (later (text.length + 1)) := by
  have hother := finds_later (finds_findAll p other) (text.length + 1)
  apply finds_iff.mp
  apply finds_append_newline hlead (finds_findAll p text)
  rwa [Nat.add_assoc]

end Pattern

namespace RawMatch

/-!
## A single line
-/

theorem eq_nil_of_semicolon_notMem {lead text : Text} {position : Nat}
    {found : List RawMatch} (h : Finds lead position text found) (hnone : ';' ∉ text) :
    found = [] := by
  by_contra hne
  rcases (ne_nil_iff_hasStatement h).mp hne with ⟨before, _, rfl, body, rest, rfl, _⟩
  simp at hnone

theorem length_le_one {lead line : Text} {position : Nat} {found : List RawMatch}
    (h : Finds lead position line found) (hline : '\n' ∉ line) : found.length <= 1 := by
  induction h with
  | finish position => exact Nat.zero_le 1
  | pass _ _ ih => exact ih fun hmem => hline (List.mem_cons_of_mem _ hmem)
  | take _ hlast hrest _ =>
      rw [List.mem_append, not_or] at hline
      rw [Text.firstLine_of_newlineFree hline.2] at hlast
      rw [eq_nil_of_semicolon_notMem hrest hlast]
      exact Nat.le_refl 1

theorem eq_of_mem_line {lead line : Text} {position : Nat} {found : List RawMatch}
    (h : Finds lead position line found) (hline : '\n' ∉ line) {m other : RawMatch}
    (hm : m ∈ found) (hother : other ∈ found) : m = other := by
  have hlength := length_le_one h hline
  match found, hlength, hm, hother with
  | [_], _, hm, hother =>
      rw [List.mem_singleton.mp hm, List.mem_singleton.mp hother]

/-- A lead before a match begins a statement too, since the match has a semicolon, and
then it is the lead of the match that is taken. -/
theorem start_le_of_lead {lead line front back : Text} {found : List RawMatch}
    (h : Finds lead 0 line found) (hline : '\n' ∉ line) {m : RawMatch} (hm : m ∈ found)
    (hfront : line = front ++ (lead ++ back)) : m.start <= front.length := by
  by_contra hlater
  rcases exists_around h hm with ⟨before, after, haround, hstart, ⟨body, hraw, _⟩, _⟩
  have hmatch : line = before ++ lead ++ (body ++ ';' :: after) := by
    rw [haround, hraw]
    simp
  have hwithin : front ++ lead <+: before ++ lead := by
    have hleft : front ++ lead <+: line := ⟨back, by rw [hfront, List.append_assoc]⟩
    apply List.prefix_of_prefix_length_le hleft
    · exact ⟨body ++ ';' :: after, hmatch.symm⟩
    · rw [List.length_append, List.length_append]
      omega
  rcases hwithin with ⟨between, hbetween⟩
  rw [← hbetween, List.append_assoc, List.append_assoc] at hmatch
  have hbegins : Begins lead (lead ++ (between ++ (body ++ ';' :: after))) := by
    refine ⟨between ++ body, after, by simp, ?_⟩
    intro hnewline
    apply hline
    rw [hmatch, ← List.append_assoc between]
    simp only [List.mem_append]
    exact Or.inr (Or.inr (Or.inl (List.mem_append.mp hnewline)))
  rcases exists_covering (hmatch ▸ h) hbegins with ⟨other, hother, hbound, _⟩
  rw [eq_of_mem_line h hline hother hm, Nat.zero_add] at hbound
  exact hlater hbound

theorem finds_statement {lead raw : Text} (h : IsStatement lead raw) (position : Nat) :
    Finds lead position raw [⟨position, raw⟩] := by
  have htake : Finds lead position (raw ++ []) [⟨position, raw⟩] :=
    Finds.take h List.not_mem_nil (Finds.finish (position + raw.length))
  rwa [List.append_nil] at htake

/-- Where no dot stands before a statement, its lead is the first one in the text: the
dot of an earlier lead would have to stand before the statement, or in the identifier. -/
theorem finds_append_statement {identifier before raw : Text}
    (hidentifier : '.' ∉ identifier) (hraw : IsStatement (identifier ++ ['.']) raw)
    (hbefore : '.' ∉ before) (position : Nat) :
    Finds (identifier ++ ['.']) position (before ++ raw)
      [⟨position + before.length, raw⟩] := by
  induction before generalizing position with
  | nil => exact finds_statement hraw position
  | cons c before ih =>
      rw [List.cons_append, List.length_cons, ← Nat.add_assoc, Nat.add_right_comm]
      rw [List.mem_cons, not_or] at hbefore
      refine Finds.pass ?_ (ih hbefore.2 (position + 1))
      intro hbegins
      rcases hbegins with ⟨body, rest, htext, _⟩
      rcases hraw with ⟨own, hraw, _⟩
      have hlead : identifier ++ ['.'] <+: c :: before ++ identifier := by
        have htext' : identifier ++ ['.'] <+: c :: (before ++ raw) := ⟨_, htext.symm⟩
        apply List.prefix_of_prefix_length_le htext'
        · exact ⟨'.' :: (own ++ [';']), by rw [hraw]; simp⟩
        · simp only [List.length_append, List.length_cons, List.length_nil]
          omega
      have hdot : '.' ∈ c :: before ++ identifier := hlead.subset (by simp)
      simp [hbefore, hidentifier] at hdot

/-!
## A line of a text

A match that starts in a line of a text is the match of that line on its own.
-/

def StartsIn (m : RawMatch) (before line : Text) : Prop :=
  before.length <= m.start ∧ m.start <= before.length + line.length

/-- The leftmost lead of the line stands behind `front`. -/
def LeftmostBehind (lead line front : Text) : Prop :=
  front ++ lead <+: line ∧
    forall other : Text, other ++ lead <+: line -> front.length <= other.length

theorem stop_le_length {p : Pattern} {text : Text} {m : RawMatch} (hm : m ∈ p.findAll text) :
    m.stop <= text.length := by
  rcases exists_around (finds_findAll p text) hm with ⟨before, after, htext, hstart, _⟩
  rw [htext, stop, hstart, List.length_append, List.length_append]
  omega

theorem exists_own_of_startsIn {p : Pattern} (hlead : '\n' ∉ p.lead)
    {text before line after : Text} (hat : Text.LineAt text before line after)
    {m : RawMatch} (hm : m ∈ p.findAll text) (hstarts : m.StartsIn before line) :
    exists own : RawMatch, own ∈ p.findAll line ∧ m = own.later before.length := by
  rcases hat with ⟨rfl, hline, hbegins, hends⟩
  have hbehind : exists own : RawMatch,
      own ∈ p.findAll (line ++ after) ∧ m = own.later before.length := by
    rcases hbegins with rfl | hlast
    · exact ⟨m, hm, rfl⟩
    · rcases List.getLast?_eq_some_iff.mp hlast with ⟨front, rfl⟩
      rw [List.append_assoc, List.singleton_append, p.findAll_append_newline hlead] at hm
      have hlength : (front ++ ['\n']).length = front.length + 1 := by simp
      rcases List.mem_append.mp hm with hfront | hown
      · have hstop := stop_le_length hfront
        have hstart := hstarts.1
        unfold stop at hstop
        omega
      · rcases List.mem_map.mp hown with ⟨own, hmem, rfl⟩
        rw [hlength]
        exact ⟨own, hmem, rfl⟩
  rcases hbehind with ⟨own, hown, rfl⟩
  rcases hends with rfl | hfirst
  · rw [List.append_nil] at hown
    exact ⟨own, hown, rfl⟩
  · rcases List.head?_eq_some_iff.mp hfirst with ⟨back, rfl⟩
    rw [p.findAll_append_newline hlead] at hown
    rcases List.mem_append.mp hown with hown | hback
    · exact ⟨own, hown, rfl⟩
    · rcases List.mem_map.mp hback with ⟨other, _, rfl⟩
      have hstart : other.start + (line.length + 1) + before.length <=
        before.length + line.length := hstarts.2
      omega

theorem exists_leftmostBehind {p : Pattern} {line : Text} (hline : '\n' ∉ line)
    {m : RawMatch} (hm : m ∈ p.findAll line) :
    exists front : Text, LeftmostBehind p.lead line front ∧ m.start = front.length := by
  have hfinds := finds_findAll p line
  rcases exists_around hfinds hm with ⟨front, after, hfront, hstart, ⟨body, hraw, _⟩, _⟩
  rw [Nat.zero_add] at hstart
  refine ⟨front, ⟨?_, ?_⟩, hstart⟩
  · rw [hfront, hraw]
    exact ⟨body ++ ';' :: after, by simp⟩
  · intro other hother
    rcases hother with ⟨back, hother⟩
    rw [← hstart]
    exact start_le_of_lead hfinds hline hm (by rw [← hother, List.append_assoc])

end RawMatch

namespace Pattern

open RawMatch

theorem findAll_sound_maximal_complete (p : Pattern) (text : Text) :
    (p.findAll text).Pairwise
        (fun m next => m.start < next.start ∧ m.stop <= next.start) ∧
      (forall m, m ∈ p.findAll text ->
        exists before after : Text, text = before ++ (m.text ++ after) ∧
          m.start = before.length ∧ IsStatement (p.identifier ++ ['.']) m.text ∧
            ';' ∉ after.firstLine) ∧
      (forall before after : Text, text = before ++ after ->
        Begins (p.identifier ++ ['.']) after ->
          exists m, m ∈ p.findAll text ∧ m.start <= before.length ∧ before.length < m.stop) ∧
      ('\n' ∉ p.identifier ->
        forall before line after : Text, Text.LineAt text before line after ->
          forall m, m ∈ p.findAll text -> m.StartsIn before line ->
            m.stop <= before.length + line.length ∧
            (exists front : Text, LeftmostBehind (p.identifier ++ ['.']) line front ∧
              m.start = before.length + front.length) ∧
            forall other, other ∈ p.findAll text -> other.StartsIn before line ->
              other = m) := by
  rw [← lead]
  have hfinds := finds_findAll p text
  refine ⟨pairwise_apart hfinds, ?_, ?_, ?_⟩
  · intro m hm
    rcases exists_around hfinds hm with ⟨before, after, htext, hstart, hraw, hafter⟩
    rw [Nat.zero_add] at hstart
    exact ⟨before, after, htext, hstart, hraw, hafter⟩
  · intro before after htext hbegins
    rw [htext] at hfinds
    rcases exists_covering hfinds hbegins with ⟨m, hm, hstart, hstop⟩
    rw [Nat.zero_add] at hstart hstop
    exact ⟨m, htext ▸ hm, hstart, hstop⟩
  · intro hidentifier before line after hat m hm hstarts
    have hlead : '\n' ∉ p.lead := by simp [lead, hidentifier]
    have hline := hat.newlineFree
    rcases exists_own_of_startsIn hlead hat hm hstarts with ⟨own, hown, rfl⟩
    refine ⟨?_, ?_, ?_⟩
    · have hstop := stop_le_length hown
      unfold stop at *
      show own.start + before.length + own.text.length <= before.length + line.length
      omega
    · rcases exists_leftmostBehind hline hown with ⟨front, hleftmost, hstart⟩
      refine ⟨front, hleftmost, ?_⟩
      rw [later, hstart, Nat.add_comm]
    · intro other hother hotherStarts
      rcases exists_own_of_startsIn hlead hat hother hotherStarts with ⟨own', hown', rfl⟩
      rw [eq_of_mem_line (finds_findAll p line) hline hown' hown]

end Pattern

end CallChains
