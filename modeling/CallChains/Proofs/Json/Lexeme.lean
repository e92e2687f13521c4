import CallChains.Json.Object

/-!
# Lexemes

Reading a document begins by dividing it into lexemes: the marks of objects and lists,
strings, and bare words, which are what stands without quotes.  Blanks between lexemes
mean nothing.  In a string a backslash begins an escape, control characters must be
escaped, and two escapes with the halves of a surrogate pair make one character.

The reader is a fold of `Lexer.step` over the characters.

Main statements: a string that is written is read back as one lexeme, and the members of
a written object are read back as the lexemes of their forest.
-/

namespace CallChains

namespace Json

inductive Lexeme where
  | openObject
  | closeObject
  | openList
  | closeList
  | colon
  | comma
  | string (text : Text)
  | bare (text : Text)
deriving DecidableEq, Repr

def isBlank (c : Char) : Bool := c = ' ' || c = '\t' || c = '\n' || c = '\r'

def mark? (c : Char) : Option Lexeme :=
  if c = '\x7b' then some .openObject
  else if c = '\x7d' then some .closeObject
  else if c = '[' then some .openList
  else if c = ']' then some .closeList
  else if c = ':' then some .colon
  else if c = ',' then some .comma
  else none

def unescaped? (c : Char) : Option Char :=
  if c = '"' || c = '\\' || c = '/' then some c
  else if c = 'b' then some '\x08'
  else if c = 'f' then some '\x0c'
  else if c = 'n' then some '\n'
  else if c = 'r' then some '\r'
  else if c = 't' then some '\t'
  else none

def hexValue? (c : Char) : Option Nat :=
  if c.isDigit then some (c.toNat - '0'.toNat)
  else if 'a' <= c && c <= 'f' then some (c.toNat - 'a'.toNat + 10)
  else if 'A' <= c && c <= 'F' then some (c.toNat - 'A'.toNat + 10)
  else none

/-- Where the reader stands.  Inside of a string it knows what has been read of it, and the
first half of a surrogate pair whose second half must follow. -/
inductive Place where
  | between
  | bare (read : Text)
  | string (high : Option Nat) (read : Text)
  | escape (high : Option Nat) (read : Text)
  | number (high : Option Nat) (read : Text) (value missing : Nat)
deriving DecidableEq, Repr

structure Lexer where
  place : Place
  found : List Lexeme
deriving DecidableEq, Repr

namespace Lexer

def start : Lexer := ⟨.between, []⟩

def begin (found : List Lexeme) (c : Char) : Lexer :=
  if isBlank c then ⟨.between, found⟩
  else if c = '"' then ⟨.string none [], found⟩
  else
    match mark? c with
    | some x => ⟨.between, found ++ [x]⟩
    | none => ⟨.bare [c], found⟩

def takeUnit (found : List Lexeme) (read : Text) (high : Option Nat) (unit : Nat) :
    Option Lexer :=
  let isLow := 0xDC00 <= unit && unit < 0xE000
  match high with
  | none =>
      if isLow then none
      else if 0xD800 <= unit && unit < 0xDC00 then some ⟨.string (some unit) read, found⟩
      else some ⟨.string none (read ++ [Char.ofNat unit]), found⟩
  | some high =>
      if isLow then
        let value := 0x10000 + (high - 0xD800) * 0x400 + (unit - 0xDC00)
        some ⟨.string none (read ++ [Char.ofNat value]), found⟩
      else none

def step (l : Lexer) (c : Char) : Option Lexer :=
  match l.place with
  | .between => some (begin l.found c)
  | .bare read =>
      if isBlank c || c = '"' || (mark? c).isSome then
        some (begin (l.found ++ [.bare read]) c)
      else some ⟨.bare (read ++ [c]), l.found⟩
  | .string high read =>
      if c = '\\' then some ⟨.escape high read, l.found⟩
      else if high.isSome || c.toNat < 0x20 then none
      else if c = '"' then some ⟨.between, l.found ++ [.string read]⟩
      else some ⟨.string none (read ++ [c]), l.found⟩
  | .escape high read =>
      if c = 'u' then some ⟨.number high read 0 4, l.found⟩
      else if high.isSome then none
      else (unescaped? c).map fun e => ⟨.string none (read ++ [e]), l.found⟩
  | .number high read value missing =>
      match hexValue? c with
      | none => none
      | some digit =>
          if missing = 1 then takeUnit l.found read high (value * 16 + digit)
          else some ⟨.number high read (value * 16 + digit) (missing - 1), l.found⟩

def run (l : Lexer) (text : Text) : Option Lexer := text.foldlM step l

def finish (l : Lexer) : Option (List Lexeme) :=
  match l.place with
  | .between => some l.found
  | .bare read => some (l.found ++ [.bare read])
  | _ => none

end Lexer

def lexemes? (text : Text) : Option (List Lexeme) :=
  (Lexer.start.run text).bind Lexer.finish

/-!
## Characters
-/

theorem escaped_cases (c : Char) :
    (exists e, escaped c = ['\\', e] ∧ unescaped? e = some c) ∨
      (escaped c = '\\' :: 'u' :: hexadecimal c.toNat ∧ c.toNat < 0x20) ∨
      (escaped c = [c] ∧ c ≠ '"' ∧ c ≠ '\\' ∧ ¬ c.toNat < 0x20) := by
  by_cases hshort : c ∈ ['"', '\\', '\x08', '\x0c', '\n', '\r', '\t']
  · left
    simp only [List.mem_cons, List.not_mem_nil, or_false] at hshort
    rcases hshort with rfl | rfl | rfl | rfl | rfl | rfl | rfl
    · exact ⟨'"', rfl, rfl⟩
    · exact ⟨'\\', rfl, rfl⟩
    · exact ⟨'b', rfl, rfl⟩
    · exact ⟨'f', rfl, rfl⟩
    · exact ⟨'n', rfl, rfl⟩
    · exact ⟨'r', rfl, rfl⟩
    · exact ⟨'t', rfl, rfl⟩
  · right
    simp only [List.mem_cons, List.not_mem_nil, or_false, not_or] at hshort
    by_cases hcontrol : c.toNat < 0x20
    · left
      simp [escaped, hshort, hcontrol]
    · right
      simp [escaped, hshort, hcontrol]

theorem not_blank_of_mark? {c : Char} {x : Lexeme} (h : mark? c = some x) :
    isBlank c = false ∧ c ≠ '"' := by
  have hne : c ≠ ' ' ∧ c ≠ '\t' ∧ c ≠ '\n' ∧ c ≠ '\r' ∧ c ≠ '"' := by
    refine ⟨?_, ?_, ?_, ?_, ?_⟩ <;> intro hc <;> rw [hc] at h <;> cases h
  simp [isBlank, hne]

theorem hexValue?_digitChar {d : Nat} (h : d < 16) : hexValue? (Nat.digitChar d) = some d := by
  have hall : forall d, d < 16 -> hexValue? (Nat.digitChar d) = some d := by decide
  exact hall d h

namespace Lexer

/-!
## One character after another
-/

@[simp] theorem run_nil (l : Lexer) : l.run [] = some l := rfl

@[simp] theorem run_cons (l : Lexer) (c : Char) (text : Text) :
    l.run (c :: text) = (l.step c).bind (run · text) := rfl

theorem run_append (l : Lexer) (text later : Text) :
    l.run (text ++ later) = (l.run text).bind (run · later) :=
  List.foldlM_append

theorem run_of_mark {c : Char} {x : Lexeme} (hmark : mark? c = some x) (found : List Lexeme)
    (later : Text) :
    run ⟨.between, found⟩ (c :: later) = run ⟨.between, found ++ [x]⟩ later := by
  have hother := not_blank_of_mark? hmark
  simp [step, begin, hother, hmark]

theorem run_of_blank {c : Char} (hblank : isBlank c = true) (found : List Lexeme)
    (later : Text) : run ⟨.between, found⟩ (c :: later) = run ⟨.between, found⟩ later := by
  simp [step, begin, hblank]

theorem run_replicate_blank {c : Char} (hblank : isBlank c = true) (n : Nat)
    (found : List Lexeme) (later : Text) :
    run ⟨.between, found⟩ (List.replicate n c ++ later) = run ⟨.between, found⟩ later := by
  induction n with
  | zero => rfl
  | succ n ih => rw [List.replicate_succ, List.cons_append, run_of_blank hblank, ih]

/-!
## Strings
-/

theorem step_number_digitChar {d : Nat} (h : d < 16) (found : List Lexeme) (read : Text)
    (value missing : Nat) :
    step ⟨.number none read value missing, found⟩ (Nat.digitChar d) =
      if missing = 1 then takeUnit found read none (value * 16 + d)
      else some ⟨.number none read (value * 16 + d) (missing - 1), found⟩ := by
  simp only [step, hexValue?_digitChar h]

theorem run_hexadecimal {n : Nat} (h : n < 0xD800) (found : List Lexeme) (read : Text) :
    run ⟨.number none read 0 4, found⟩ (hexadecimal n) =
      some ⟨.string none (read ++ [Char.ofNat n]), found⟩ := by
  have hdigits : (((0 * 16 + n / 4096 % 16) * 16 + n / 256 % 16) * 16 + n / 16 % 16) * 16 +
      n % 16 = n := by
    omega
  have hlow : ¬ (0xDC00 <= n ∧ n < 0xE000) := by omega
  have hhigh : ¬ (0xD800 <= n ∧ n < 0xDC00) := by omega
  have hmod : forall k, k % 16 < 16 := fun k => Nat.mod_lt k (by decide)
  simp only [hexadecimal, List.map_cons, List.map_nil, run_cons, run_nil,
    step_number_digitChar (hmod _), Option.bind_some, Nat.reduceEqDiff, Nat.reduceSub,
    if_false, if_true, hdigits]
  simp [takeUnit, hlow, hhigh]

theorem run_escaped (c : Char) (found : List Lexeme) (read : Text) :
    run ⟨.string none read, found⟩ (escaped c) =
      some ⟨.string none (read ++ [c]), found⟩ := by
  rcases escaped_cases c with ⟨e, hwritten, he⟩ | ⟨hwritten, hcontrol⟩ |
    ⟨hwritten, hquote, hbackslash, hcontrol⟩
  · have hnumber : e ≠ 'u' := by
      intro h
      rw [h] at he
      cases he
    simp [hwritten, step, hnumber, he]
  · have hnumber := run_hexadecimal (show c.toNat < 0xD800 by omega) found read
    rw [Char.ofNat_toNat] at hnumber
    rw [hwritten]
    exact hnumber
  · simp [hwritten, step, hquote, hbackslash, hcontrol]

theorem run_flatMap_escaped (text : Text) (found : List Lexeme) (read : Text) :
    run ⟨.string none read, found⟩ (text.flatMap escaped) =
      some ⟨.string none (read ++ text), found⟩ := by
  induction text generalizing read with
  | nil => simp
  | cons c text ih =>
      rw [List.flatMap_cons, run_append, run_escaped, Option.bind_some, ih,
        List.append_assoc, List.singleton_append]

theorem run_quoted (text : Text) (found : List Lexeme) (later : Text) :
    run ⟨.between, found⟩ (quoted text ++ later) =
      run ⟨.between, found ++ [.string text]⟩ later := by
  have hopen : step ⟨.between, found⟩ '"' = some ⟨.string none [], found⟩ := rfl
  have hclose : step ⟨.string none text, found⟩ '"' =
      some ⟨.between, found ++ [.string text]⟩ := rfl
  rw [quoted, List.cons_append, run_cons, hopen, Option.bind_some, List.append_assoc,
    run_append, run_flatMap_escaped, Option.bind_some, List.nil_append,
    List.singleton_append, run_cons, hclose, Option.bind_some]

end Lexer

/-!
## Objects
-/

def prettyOthers (level : Nat) (others : Forest) (after : Text) : Text :=
  if others.isEmpty then after else ',' :: '\n' :: prettyMembers level others after

theorem prettyMembers_leaf (level : Nat) (name : Text) (others : Forest) (after : Text) :
    prettyMembers level (.branch name .nil others) after =
      indent level ++ (quoted name ++
        ':' :: ' ' :: '\x7b' :: '\x7d' :: prettyOthers level others after) := rfl

theorem prettyMembers_inner (level : Nat) (name first : Text) (lower rest others : Forest)
    (after : Text) :
    prettyMembers level (.branch name (.branch first lower rest) others) after =
      indent level ++ (quoted name ++
        ':' :: ' ' :: '\x7b' :: '\n' :: prettyMembers (level + 1) (.branch first lower rest)
          ('\n' :: (indent level ++ '\x7d' :: prettyOthers level others after))) := rfl

theorem pretty_branch (name : Text) (below others : Forest) :
    pretty (.branch name below others) =
      '\x7b' :: '\n' :: prettyMembers 1 (.branch name below others) ['\n', '\x7d'] := rfl

def memberLexemes : Forest -> List Lexeme
  | .nil => []
  | .branch name below others =>
      .string name :: .colon :: .openObject :: (memberLexemes below ++ .closeObject ::
        (if others.isEmpty then [] else .comma :: memberLexemes others))

namespace Lexer

theorem run_prettyOthers {level : Nat} {others : Forest} {after : Text}
    (h : forall found : List Lexeme, run ⟨.between, found⟩ (prettyMembers level others after) =
      run ⟨.between, found ++ memberLexemes others⟩ after) (found : List Lexeme) :
    run ⟨.between, found⟩ (prettyOthers level others after) =
      run ⟨.between, found ++
        (if others.isEmpty then [] else .comma :: memberLexemes others)⟩ after := by
  unfold prettyOthers
  split
  · rw [List.append_nil]
  · rw [run_of_mark rfl, run_of_blank rfl, h, List.append_assoc,
      List.singleton_append]

theorem run_prettyMembers (level : Nat) (object : Forest) (found : List Lexeme)
    (after : Text) :
    run ⟨.between, found⟩ (prettyMembers level object after) =
      run ⟨.between, found ++ memberLexemes object⟩ after := by
  induction object generalizing level found after with
  | nil => rw [memberLexemes, List.append_nil, prettyMembers]
  | branch name below others ihBelow ihOthers =>
      have hothers := run_prettyOthers (ihOthers level · after)
      cases below with
      | nil =>
          rw [prettyMembers_leaf, indent, run_replicate_blank rfl, run_quoted,
            run_of_mark rfl, run_of_blank rfl,
            run_of_mark rfl, run_of_mark rfl, hothers]
          simp [memberLexemes]
      | branch first lower rest =>
          rw [prettyMembers_inner, indent, run_replicate_blank rfl, run_quoted,
            run_of_mark rfl, run_of_blank rfl,
            run_of_mark rfl, run_of_blank rfl, ihBelow, run_of_blank rfl,
            run_replicate_blank rfl, run_of_mark rfl, hothers]
          simp [memberLexemes]

end Lexer

theorem lexemes?_pretty (object : Forest) :
    lexemes? (pretty object) =
      some (.openObject :: (memberLexemes object ++ [.closeObject])) := by
  cases object with
  | nil => rfl
  | branch name below others =>
      rw [lexemes?, pretty_branch, Lexer.start, Lexer.run_of_mark rfl,
        Lexer.run_of_blank rfl, Lexer.run_prettyMembers, Lexer.run_of_blank rfl,
        Lexer.run_of_mark rfl]
      simp [Lexer.finish]

end Json

end CallChains
