import CallChains.Proofs.Json.Lexeme

/-!
# Values

A document has a value: a word, a numeral, a string, a list of values, or an object with
values under keys, in the order in which they were written.  The reader takes the lexemes
one after another; it keeps the objects and lists that are still open, the innermost one
first, and what it expects next.

Main statement: an object that is written is read back as nested objects with the names of
the forest as their keys.
-/

namespace CallChains

namespace Json

inductive Value where
  | null
  | bool (b : Bool)
  | number (numeral : Text)
  | string (text : Text)
  | list (elements : List Value)
  | object (members : List (Text × Value))
deriving Repr

/-!
## Numerals
-/

def digits? (text : Text) : Option Text :=
  if (text.takeWhile Char.isDigit).isEmpty then none else some (text.dropWhile Char.isDigit)

def whole? : Text -> Option Text
  | '0' :: rest => some rest
  | text => digits? text

def fraction? : Text -> Option Text
  | '.' :: rest => digits? rest
  | text => some text

def exponent? : Text -> Option Text
  | [] => some []
  | e :: rest =>
      if e = 'e' || e = 'E' then
        match rest with
        | '+' :: rest => digits? rest
        | '-' :: rest => digits? rest
        | rest => digits? rest
      else some (e :: rest)

def isNumeral (text : Text) : Bool :=
  let unsigned := if text.head? = some '-' then text.tail else text
  ((whole? unsigned).bind fraction?).bind exponent? == some []

def Value.ofBare? (text : Text) : Option Value :=
  if text = "null".toList then some .null
  else if text = "true".toList then some (.bool true)
  else if text = "false".toList then some (.bool false)
  else if isNumeral text then some (.number text)
  else none

/-!
## Reading lexemes
-/

/-- A list or an object that is open, with what has been read of it; the value of the key
is still to come. -/
inductive Frame where
  | list (before : List Value)
  | object (before : List (Text × Value)) (key : Text)

inductive Reader where
  | value (frames : List Frame)
  | firstElement (frames : List Frame)
  | firstKey (frames : List Frame)
  | key (before : List (Text × Value)) (frames : List Frame)
  | colon (before : List (Text × Value)) (key : Text) (frames : List Frame)
  /-- A value is complete. -/
  | behind (v : Value) (frames : List Frame)

namespace Reader

def begin (frames : List Frame) : Lexeme -> Option Reader
  | .openObject => some (.firstKey frames)
  | .openList => some (.firstElement frames)
  | .string text => some (.behind (.string text) frames)
  | .bare text => (Value.ofBare? text).map (.behind · frames)
  | _ => none

def step : Reader -> Lexeme -> Option Reader
  | .value frames, x => begin frames x
  | .firstElement frames, .closeList => some (.behind (.list []) frames)
  | .firstElement frames, x => begin (.list [] :: frames) x
  | .firstKey frames, .closeObject => some (.behind (.object []) frames)
  | .firstKey frames, .string name => some (.colon [] name frames)
  | .key before frames, .string name => some (.colon before name frames)
  | .colon before name frames, .colon => some (.value (.object before name :: frames))
  | .behind v (.list before :: frames), .comma =>
      some (.value (.list (before ++ [v]) :: frames))
  | .behind v (.list before :: frames), .closeList =>
      some (.behind (.list (before ++ [v])) frames)
  | .behind v (.object before name :: frames), .comma =>
      some (.key (before ++ [(name, v)]) frames)
  | .behind v (.object before name :: frames), .closeObject =>
      some (.behind (.object (before ++ [(name, v)])) frames)
  | _, _ => none

def run (r : Reader) (lexemes : List Lexeme) : Option Reader := lexemes.foldlM step r

def finish : Reader -> Option Value
  | .behind v [] => some v
  | _ => none

end Reader

def Value.ofText? (text : Text) : Option Value := do
  let lexemes ← lexemes? text
  let final ← (Reader.value []).run lexemes
  final.finish

/-!
## Objects of a forest
-/

def members : Forest -> List (Text × Value)
  | .nil => []
  | .branch name below others => (name, .object (members below)) :: members others

def Value.ofForest (forest : Forest) : Value := .object (members forest)

namespace Reader

theorem run_firstKey_branch (name : Text) (below others : Forest) (frames : List Frame)
    (later : List Lexeme) :
    (firstKey frames).run (memberLexemes (.branch name below others) ++ later) =
      (key [] frames).run (memberLexemes (.branch name below others) ++ later) := rfl

theorem run_key_branch (forest : Forest) (hne : forest ≠ .nil)
    (before : List (Text × Value)) (frames : List Frame) (later : List Lexeme) :
    (key before frames).run (memberLexemes forest ++ .closeObject :: later) =
      (behind (.object (before ++ members forest)) frames).run later := by
  induction forest generalizing before frames later with
  | nil => exact absurd rfl hne
  | branch name below others ihBelow ihOthers =>
      have hbelow : forall later : List Lexeme,
          (firstKey (.object before name :: frames)).run
              (memberLexemes below ++ .closeObject :: later) =
            (behind (Value.ofForest below) (.object before name :: frames)).run later := by
        intro later
        cases below with
        | nil => rfl
        | branch first lower rest =>
            rw [run_firstKey_branch, ihBelow (by simp)]
            rfl
      have hlexemes : memberLexemes (.branch name below others) ++ .closeObject :: later =
          .string name :: .colon :: .openObject :: (memberLexemes below ++
            .closeObject :: ((if others.isEmpty then [] else .comma :: memberLexemes others) ++
              .closeObject :: later)) := by
        simp [memberLexemes]
      rw [hlexemes]
      show (firstKey (.object before name :: frames)).run _ = _
      rw [hbelow]
      cases others with
      | nil => rfl
      | branch first lower rest =>
          show (key (before ++ [(name, Value.ofForest below)]) frames).run
            (memberLexemes (.branch first lower rest) ++ .closeObject :: later) = _
          rw [ihOthers (by simp), List.append_assoc]
          rfl

theorem run_value_object (forest : Forest) (frames : List Frame) :
    (value frames).run (.openObject :: (memberLexemes forest ++ [.closeObject])) =
      some (behind (Value.ofForest forest) frames) := by
  show (firstKey frames).run (memberLexemes forest ++ [.closeObject]) = _
  cases forest with
  | nil => rfl
  | branch name below others =>
      rw [run_firstKey_branch, run_key_branch _ (by simp)]
      rfl

end Reader

theorem Value.ofText?_pretty (forest : Forest) :
    ofText? (pretty forest) = some (ofForest forest) := by
  rw [ofText?, lexemes?_pretty]
  show ((Reader.value []).run _).bind Reader.finish = _
  rw [Reader.run_value_object]
  rfl

-- The reader knows more than what is written here, and it rejects a comma too many.
example : Value.ofText? "[\t\"\\u00e9\\ud83d\\ude00\" , -1.5e3,\x7b\x7d ]\n".toList =
    some (.list [.string "é😀".toList, .number "-1.5e3".toList, .object []]) := by
  cbv

example : (Value.ofText? "[null,]".toList).isNone = true := by
  rfl

end Json

end CallChains
