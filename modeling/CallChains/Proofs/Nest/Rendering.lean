import CallChains.Proofs.Chain.Reading
import CallChains.Proofs.RawMatch.Lines

/-!
# Nested chains and their written form

A statement that is written with care holds chains of one identifier, each within the
last call of the chain before it, as in `Library.open(Library.path());`.  A nest is
such a statement as data.  Written out, every chain begins with the identifier and a
dot, and the calls that are open at the end are closed in front of the semicolon.
-/

namespace CallChains

structure Name where
  text : Text
  valid : isIdentifier text = true

def Name.token (name : Name) (mark : Char) : Token := ⟨name.text ++ [mark]⟩

theorem Name.newline_notMem (name : Name) : '\n' ∉ name.text :=
  notMem_of_isIdentifier name.valid (by decide)

/-- A link of a chain: a property, or a call without arguments. -/
inductive Segment where
  | property (name : Name)
  | call (name : Name)

namespace Segment

def name : Segment -> Name
  | property name => name
  | call name => name

def written : Segment -> Text
  | property name => name.text
  | call name => name.text ++ ['(', ')']

def token : Segment -> Token
  | property name => name.token '.'
  | call name => name.token '('

/-- The token of the last segment of a statement inside of `depth` open calls. -/
def lastToken : Segment -> Nat -> Token
  | segment, 0 => segment.name.token ';'
  | property name, _ + 1 => name.token ')'
  | call name, _ + 1 => name.token '('

end Segment

/-- Chains of segments, each within the last call of the chain before it. -/
inductive Nest where
  | chain (front : List Segment) (last : Segment)
  | within (front : List Segment) (opening : Name) (inner : Nest)

namespace Nest

def writtenFront (front : List Segment) : Text :=
  front.flatMap fun segment => segment.written ++ ['.']

def render (identifier : Text) : Nest -> Nat -> Text
  | chain front last, depth =>
      identifier ++ '.' :: (writtenFront front ++
        (last.written ++ (List.replicate depth ')' ++ [';'])))
  | within front opening inner, depth =>
      identifier ++ '.' :: (writtenFront front ++
        (opening.text ++ '(' :: inner.render identifier (depth + 1)))

/-- No property but the last one of a statement has the name of the identifier, and a
statement inside of open calls ends in a call or is a property alone. -/
def Allowed (identifier : Text) : Nest -> Nat -> Prop
  | chain front last, depth =>
      (forall name, Segment.property name ∈ front -> name.text ≠ identifier) ∧
        (0 < depth -> forall name, last = Segment.property name -> front = [])
  | within front _ inner, depth =>
      (forall name, Segment.property name ∈ front -> name.text ≠ identifier) ∧
        inner.Allowed identifier (depth + 1)

def chains : Nest -> List (List Text)
  | chain front last => [(front ++ [last]).map (·.name.text)]
  | within front opening inner => (front.map (·.name.text) ++ [opening.text]) :: inner.chains

def tokens (identifier : Text) : Nest -> Nat -> List Chain
  | chain front last, depth =>
      [Token.ofIdentifier identifier :: (front.map Segment.token ++ [last.lastToken depth])]
  | within front opening inner, depth =>
      (Token.ofIdentifier identifier :: (front.map Segment.token ++ [opening.token '('])) ::
        inner.tokens identifier (depth + 1)

/-!
## A rendered nest is a statement
-/

theorem newline_notMem_written (segment : Segment) : '\n' ∉ segment.written := by
  cases segment with
  | property name => exact name.newline_notMem
  | call name =>
      intro hmem
      rcases List.mem_append.mp hmem with hname | hmarks
      · exact name.newline_notMem hname
      · exact absurd hmarks (by decide)

theorem newline_notMem_writtenFront (front : List Segment) : '\n' ∉ writtenFront front := by
  intro hmem
  rcases List.mem_flatMap.mp hmem with ⟨segment, _, hsegment⟩
  rcases List.mem_append.mp hsegment with hwritten | hdot
  · exact newline_notMem_written segment hwritten
  · exact absurd hdot (by decide)

theorem isStatement_render {p : Pattern} (h : isIdentifier p.identifier = true) (nest : Nest)
    (depth : Nat) : RawMatch.IsStatement p.lead (nest.render p.identifier depth) := by
  induction nest generalizing depth with
  | chain front last =>
      refine ⟨writtenFront front ++ (last.written ++ List.replicate depth ')'), ?_, ?_⟩
      · simp [render, Pattern.lead]
      · simp [newline_notMem_writtenFront, newline_notMem_written]
  | within front opening inner ih =>
      rcases ih (depth + 1) with ⟨body, hbody, hfree⟩
      refine ⟨writtenFront front ++ (opening.text ++ '(' :: (p.lead ++ body)), ?_, ?_⟩
      · rw [render, hbody]
        simp [Pattern.lead]
      · have hidentifier : '\n' ∉ p.identifier := notMem_of_isIdentifier h (by decide)
        simp [newline_notMem_writtenFront, opening.newline_notMem, hfree, hidentifier,
          Pattern.lead]

end Nest

end CallChains
