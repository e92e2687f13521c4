import CallChains.Text
import Mathlib.Data.List.TakeWhile

/-!
# Lines

A text is a row of lines with a newline between neighbours; the empty text is one
empty line.  What can be said about a text line by line rests on two facts: a
newline between two texts divides the lines of both, and a text without a newline
is its own only line.
-/

namespace CallChains

namespace Text

def lines (text : Text) : List Text := text.splitOn '\n'

def firstLine (text : Text) : Text := text.takeWhile (· != '\n')

/-- Behind `before` there stands a whole line of the text, and then `after`. -/
structure LineAt (text before line after : Text) : Prop where
  text_eq : text = before ++ (line ++ after)
  newlineFree : '\n' ∉ line
  begins : before = [] ∨ before.getLast? = some '\n'
  ends : after = [] ∨ after.head? = some '\n'

/-!
## Dividing and joining
-/

theorem lines_append_newline (text other : Text) :
    lines (text ++ '\n' :: other) = lines text ++ lines other :=
  List.splitOn_append_cons_self text other

theorem lines_of_newlineFree {line : Text} (h : '\n' ∉ line) : lines line = [line] :=
  List.splitOn_eq_singleton h

theorem newline_cases (text : Text) :
    '\n' ∉ text ∨ exists line rest : Text, text = line ++ '\n' :: rest ∧ '\n' ∉ line := by
  by_cases h : '\n' ∈ text
  · right
    exact List.eq_append_cons_of_mem h
  · exact Or.inl h

theorem join_lines (text : Text) : join ['\n'] (lines text) = text :=
  List.intercalate_splitOn '\n'

theorem join_cons_cons (first second : Text) (texts : List Text) :
    join ['\n'] (first :: second :: texts) =
      first ++ '\n' :: join ['\n'] (second :: texts) := by
  simp [join]

theorem newline_notMem_of_mem_lines {text line : Text} (h : line ∈ lines text) :
    '\n' ∉ line := by
  rcases newline_cases text with hfree | ⟨first, rest, htext, hfirst⟩
  · rw [lines_of_newlineFree hfree, List.mem_singleton] at h
    rw [h]
    exact hfree
  · rw [htext, lines_append_newline, lines_of_newlineFree hfirst, List.singleton_append] at h
    have hshorter : rest.length < text.length := by
      rw [htext, List.length_append, List.length_cons]
      omega
    cases h with
    | head => exact hfirst
    | tail _ hrest => exact newline_notMem_of_mem_lines hrest
termination_by text.length

/-!
## The first line

A character of the first line is reached without passing a newline.  Of several
such characters the last one is singled out by what follows it.
-/

theorem firstLine_newline_cons (text : Text) : firstLine ('\n' :: text) = [] := by
  simp [firstLine]

theorem firstLine_cons_of_ne {c : Char} (h : c ≠ '\n') (text : Text) :
    firstLine (c :: text) = c :: firstLine text := by
  simp [firstLine, h]

theorem firstLine_append {line : Text} (h : '\n' ∉ line) (text : Text) :
    firstLine (line ++ text) = line ++ firstLine text := by
  apply List.takeWhile_append_of_pos
  intro c hc
  simpa using ne_of_mem_of_not_mem hc h

theorem firstLine_of_newlineFree {line : Text} (h : '\n' ∉ line) : firstLine line = line := by
  simpa [firstLine] using firstLine_append h []

theorem firstLine_append_newline (text other : Text) :
    firstLine (text ++ '\n' :: other) = firstLine text := by
  rcases newline_cases text with hfree | ⟨line, rest, rfl, hfree⟩
  · rw [firstLine_append hfree, firstLine_newline_cons, List.append_nil,
      firstLine_of_newlineFree hfree]
  · rw [List.append_assoc, List.cons_append, firstLine_append hfree, firstLine_append hfree,
      firstLine_newline_cons, firstLine_newline_cons]

theorem newline_notMem_firstLine (text : Text) : '\n' ∉ firstLine text := by
  intro h
  simpa using List.mem_takeWhile_imp h

theorem mem_firstLine_iff {c : Char} (hc : c ≠ '\n') {text : Text} :
    c ∈ firstLine text <->
      exists body rest : Text, text = body ++ c :: rest ∧ '\n' ∉ body := by
  constructor
  · intro h
    rcases List.append_of_mem h with ⟨body, front, hfront⟩
    have htext : firstLine text ++ text.dropWhile (· != '\n') = text :=
      List.takeWhile_append_dropWhile
    refine ⟨body, front ++ text.dropWhile (· != '\n'), ?_, ?_⟩
    · rw [← List.cons_append, ← List.append_assoc, ← hfront]
      exact htext.symm
    · intro hnewline
      apply newline_notMem_firstLine text
      rw [hfront]
      exact List.mem_append_left _ hnewline
  · intro h
    rcases h with ⟨body, rest, htext, hbody⟩
    rw [htext, firstLine_append hbody, firstLine_cons_of_ne hc]
    simp

theorem exists_last_of_mem_firstLine {c : Char} {text : Text}
    (h : c ∈ firstLine text) :
    exists body rest : Text,
      text = body ++ c :: rest ∧ '\n' ∉ body ∧ c ∉ firstLine rest := by
  induction text with
  | nil => cases h
  | cons d rest ih =>
      have hd : d ≠ '\n' := by
        intro hd
        rw [hd, firstLine_newline_cons] at h
        cases h
      by_cases hlater : c ∈ firstLine rest
      · rcases ih hlater with ⟨body, tail, hrest, hbody, htail⟩
        refine ⟨d :: body, tail, ?_, ?_, htail⟩
        · rw [hrest, List.cons_append]
        · simpa [hbody] using hd.symm
      · rw [firstLine_cons_of_ne hd] at h
        cases h with
        | head => exact ⟨[], rest, rfl, List.not_mem_nil, hlater⟩
        | tail _ hmem => exact absurd hmem hlater

end Text

end CallChains
