import CallChains.Fault
import CallChains.Store.Path

/-!
# Stores of files

A store holds directories and files by their places.  A place is the list of
names that leads to it from the root.  Writing resolves a path to a place and
then either makes or replaces the whole file there, or fails and leaves the store
as it was.

Resolving walks over the parts of the path.  Every part but the last must lead
to a directory; the last one may lead to a file or to nothing yet.
-/

namespace CallChains

namespace Store

abbrev Place := List Text

inductive Node where
  | directory
  | file (content : List UInt8)
deriving DecidableEq, Repr

end Store

/-- The nodes of a store, the latest first: of two nodes at one place the first
one counts. -/
structure Store where
  nodes : List (Store.Place × Store.Node)

namespace Store

def nameLimit : Nat := 255

/-- A path of this many bytes is too long. -/
def pathLimit : Nat := 4096

def empty : Store := ⟨[]⟩

def get? (s : Store) (place : Place) : Option Node :=
  if place = [] then some .directory else s.nodes.lookup place

def put (s : Store) (place : Place) (node : Node) : Store := ⟨(place, node) :: s.nodes⟩

theorem get?_put_self (s : Store) {place : Place} (h : place ≠ []) (node : Node) :
    (s.put place node).get? place = some node := by
  simp [get?, put, h]

theorem get?_put_of_ne (s : Store) {place other : Place} (h : other ≠ place)
    (node : Node) : (s.put place node).get? other = s.get? other := by
  unfold get? put
  split
  · rfl
  · rw [List.lookup_cons, beq_false_of_ne h]

def makeDirectory (s : Store) (place : Place) : Store :=
  match s.get? place with
  | none => s.put place .directory
  | some _ => s

def makeDirectories (s : Store) (place : Place) : List Text → Store
  | [] => s
  | name :: names =>
      (s.makeDirectory (place ++ [name])).makeDirectories (place ++ [name]) names

/-!
## Resolving paths
-/

def enter (s : Store) (directory : Place) : Part → Except Fault Place
  | .here => .ok directory
  | .parent => .ok directory.dropLast
  | .name text =>
      if nameLimit < text.byteCount then .error .nameTooLong
      else
        match s.get? (directory ++ [text]) with
        | none => .error .noSuchFile
        | some (.file _) => .error .notDirectory
        | some .directory => .ok (directory ++ [text])

def fileIn (s : Store) (directory : Place) (slashed : Bool) (text : Text) :
    Except Fault Place :=
  if slashed then .error .isDirectory
  else if nameLimit < text.byteCount then .error .nameTooLong
  else
    match s.get? (directory ++ [text]) with
    | some .directory => .error .isDirectory
    | _ => .ok (directory ++ [text])

def walk (s : Store) (slashed : Bool) (directory : Place) : List Part → Except Fault Place
  | [] => .error .isDirectory
  | [.name text] => s.fileIn directory slashed text
  | part :: rest => do
      let next ← s.enter directory part
      walk s slashed next rest

def resolve (s : Store) (working : Place) (path : Text) : Except Fault Place :=
  if path.contains '\x00' then .error .nulInPath
  else if path.isEmpty then .error .noSuchFile
  else if pathLimit <= path.byteCount then .error .nameTooLong
  else
    let p := Path.ofText path
    s.walk p.slashed (if p.fromRoot then [] else working) p.parts

def write (s : Store) (working : Place) (path : Text) (content : List UInt8) :
    Except Fault Store := do
  let place ← s.resolve working path
  return s.put place (.file content)

/-!
## Listing
-/

def firstEntries (nodes : List (Place × Node)) : List (Place × Node) :=
  nodes.foldr (fun entry rest => entry :: rest.filter (·.1 != entry.1)) []

def filesBelow (s : Store) (directory : Place) : List (Place × List UInt8) :=
  (firstEntries s.nodes).filterMap fun entry =>
    match directory.isPrefixOf? entry.1, entry.2 with
    | some names, .file content => some (names, content)
    | _, _ => none

end Store

end CallChains
