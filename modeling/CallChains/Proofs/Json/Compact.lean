import CallChains.Proofs.Json.Lexeme

/-!
# Blanks between lexemes

A blank is needless if it stands outside of a string.  Whether a character stands in a
string is decided by the quotes before it; a quote behind a backslash does not count.

Main statement: the pretty form of an object without its needless blanks is the compact
form.
-/

namespace CallChains

namespace Json

inductive Side where
  | outside
  | inside
  /-- In a string behind a backslash. -/
  | escaping
deriving DecidableEq, Repr

def Side.next : Side -> Char -> Side
  | .outside, c => if c = '"' then .inside else .outside
  | .inside, c => if c = '"' then .outside else if c = '\\' then .escaping else .inside
  | .escaping, _ => .inside

def withoutBlanks : Side -> Text -> Text
  | _, [] => []
  | side, c :: rest =>
      if side = .outside && isBlank c then withoutBlanks .outside rest
      else c :: withoutBlanks (side.next c) rest

/-!
## Strings
-/

theorem withoutBlanks_inside {c : Char} (hquote : c ≠ '"') (hbackslash : c ≠ '\\')
    (later : Text) :
    withoutBlanks .inside (c :: later) = c :: withoutBlanks .inside later := by
  simp [withoutBlanks, Side.next, hquote, hbackslash]

theorem withoutBlanks_backslash (c : Char) (later : Text) :
    withoutBlanks .inside ('\\' :: c :: later) =
      '\\' :: c :: withoutBlanks .inside later := rfl

theorem digitChar_ne_quote {d : Nat} (h : d < 16) :
    Nat.digitChar d ≠ '"' ∧ Nat.digitChar d ≠ '\\' := by
  have hall : forall d, d < 16 -> Nat.digitChar d ≠ '"' ∧ Nat.digitChar d ≠ '\\' := by
    decide
  exact hall d h

theorem withoutBlanks_hexadecimal (n : Nat) (later : Text) :
    withoutBlanks .inside (hexadecimal n ++ later) =
      hexadecimal n ++ withoutBlanks .inside later := by
  have hdigit : forall (k : Nat) (later : Text),
      withoutBlanks .inside (Nat.digitChar (k % 16) :: later) =
        Nat.digitChar (k % 16) :: withoutBlanks .inside later := by
    intro k later
    have hne := digitChar_ne_quote (Nat.mod_lt k (by decide : 0 < 16))
    exact withoutBlanks_inside hne.1 hne.2 later
  simp only [hexadecimal, List.map_cons, List.map_nil, List.cons_append, List.nil_append,
    hdigit]

theorem withoutBlanks_escaped (c : Char) (later : Text) :
    withoutBlanks .inside (escaped c ++ later) = escaped c ++ withoutBlanks .inside later := by
  rcases escaped_cases c with ⟨e, hwritten, _⟩ | ⟨hwritten, _⟩ |
    ⟨hwritten, hquote, hbackslash, _⟩
  · rw [hwritten]
    exact withoutBlanks_backslash e later
  · rw [hwritten, List.cons_append, List.cons_append, withoutBlanks_backslash,
      withoutBlanks_hexadecimal]
    rfl
  · rw [hwritten]
    exact withoutBlanks_inside hquote hbackslash later

theorem withoutBlanks_quoted (text later : Text) :
    withoutBlanks .outside (quoted text ++ later) =
      quoted text ++ withoutBlanks .outside later := by
  have hbody : withoutBlanks .inside (text.flatMap escaped ++ '"' :: later) =
      text.flatMap escaped ++ '"' :: withoutBlanks .outside later := by
    induction text with
    | nil => rfl
    | cons c text ih =>
        rw [List.flatMap_cons, List.append_assoc, withoutBlanks_escaped, ih,
          List.append_assoc]
  have hopen : quoted text ++ later = '"' :: (text.flatMap escaped ++ '"' :: later) := by
    simp [quoted]
  rw [hopen]
  show '"' :: withoutBlanks .inside (text.flatMap escaped ++ '"' :: later) = _
  rw [hbody]
  simp [quoted]

/-!
## Objects
-/

theorem withoutBlanks_of_mark {c : Char} {x : Lexeme} (hmark : mark? c = some x)
    (later : Text) :
    withoutBlanks .outside (c :: later) = c :: withoutBlanks .outside later := by
  have hother := not_blank_of_mark? hmark
  simp [withoutBlanks, Side.next, hother]

theorem withoutBlanks_of_blank {c : Char} (hblank : isBlank c = true) (later : Text) :
    withoutBlanks .outside (c :: later) = withoutBlanks .outside later := by
  simp [withoutBlanks, hblank]

theorem withoutBlanks_indent (level : Nat) (later : Text) :
    withoutBlanks .outside (indent level ++ later) = withoutBlanks .outside later := by
  unfold indent
  induction 4 * level with
  | zero => rfl
  | succ n ih => rw [List.replicate_succ, List.cons_append, withoutBlanks_of_blank rfl, ih]

def compactOthers (others : Forest) (after : Text) : Text :=
  if others.isEmpty then after else ',' :: compactMembers others after

theorem compactMembers_branch (name : Text) (below others : Forest) (after : Text) :
    compactMembers (.branch name below others) after =
      quoted name ++ ':' :: '\x7b' :: compactMembers below
        ('\x7d' :: compactOthers others after) := rfl

theorem withoutBlanks_prettyOthers {level : Nat} {others : Forest} {after : Text}
    (h : withoutBlanks .outside (prettyMembers level others after) =
      compactMembers others (withoutBlanks .outside after)) :
    withoutBlanks .outside (prettyOthers level others after) =
      compactOthers others (withoutBlanks .outside after) := by
  unfold prettyOthers compactOthers
  split
  · rfl
  · rw [withoutBlanks_of_mark rfl, withoutBlanks_of_blank rfl, h]

theorem withoutBlanks_prettyMembers (level : Nat) (object : Forest) (after : Text) :
    withoutBlanks .outside (prettyMembers level object after) =
      compactMembers object (withoutBlanks .outside after) := by
  induction object generalizing level after with
  | nil => rfl
  | branch name below others ihBelow ihOthers =>
      have hothers := withoutBlanks_prettyOthers (ihOthers level after)
      cases below with
      | nil =>
          rw [prettyMembers_leaf, withoutBlanks_indent, withoutBlanks_quoted,
            withoutBlanks_of_mark rfl, withoutBlanks_of_blank rfl,
            withoutBlanks_of_mark rfl, withoutBlanks_of_mark rfl,
            hothers, compactMembers_branch]
          rfl
      | branch first lower rest =>
          rw [prettyMembers_inner, withoutBlanks_indent, withoutBlanks_quoted,
            withoutBlanks_of_mark rfl, withoutBlanks_of_blank rfl,
            withoutBlanks_of_mark rfl, withoutBlanks_of_blank rfl, ihBelow,
            withoutBlanks_of_blank rfl, withoutBlanks_indent,
            withoutBlanks_of_mark rfl, hothers, ← compactMembers_branch]

theorem withoutBlanks_pretty (object : Forest) :
    withoutBlanks .outside (pretty object) = compact object := by
  cases object with
  | nil => rfl
  | branch name below others =>
      rw [pretty_branch, withoutBlanks_of_mark rfl, withoutBlanks_of_blank rfl,
        withoutBlanks_prettyMembers]
      rfl

end Json

end CallChains
