import CallChains.CallTrie
import CallChains.Json.Object

/-!
# Documents

The document of a run is an object with one member: under the text of the
identifier's token stands the trie of the calls.
-/

namespace CallChains

structure Document where
  root : Token
  trie : CallTrie
deriving DecidableEq

namespace Document

def object (d : Document) : Forest := .branch d.root.text d.trie.forest .nil

def compact (d : Document) : Text := Json.compact d.object

def pretty (d : Document) : Text := Json.pretty d.object

end Document

end CallChains
