import CallChains.Text

/-!
# Forests of named branches

A forest is a row of branches.  Each branch has a name and, below it, a forest
again.  It is the shape shared by a call trie, whose branches are method calls,
and by a document made of nested objects, whose branches are members.

Inserting a path of names follows the branches that are there and adds those that
are missing, keeping the names of each row strictly ascending.
-/

namespace CallChains

/-- Either no branch, or a first branch with the forest below it and the other
branches of the row. -/
inductive Forest where
  | nil
  | branch (name : Text) (below others : Forest)
deriving DecidableEq, Repr

namespace Forest

def isEmpty : Forest → Bool
  | .nil => true
  | .branch _ _ _ => false

def child? (name : Text) : Forest → Option Forest
  | .nil => none
  | .branch first below others => if name = first then some below else others.child? name

def count : Forest → Nat
  | .nil => 0
  | .branch _ below others => 1 + below.count + others.count

def ofPath : List Text → Forest
  | [] => .nil
  | name :: path => .branch name (ofPath path) .nil

def insert : Forest → List Text → Forest
  | forest, [] => forest
  | .nil, name :: path => ofPath (name :: path)
  | .branch first below others, name :: path =>
      if name < first then
        .branch name (ofPath path) (.branch first below others)
      else if name = first then
        .branch first (below.insert path) others
      else
        .branch first below (others.insert (name :: path))

/-!
## Ascending rows
-/

/-- The row is empty or begins above `name`. -/
def Above (name : Text) : Forest → Prop
  | .nil => True
  | .branch first _ _ => name < first

def Ascending : Forest → Prop
  | .nil => True
  | .branch name below others => others.Above name ∧ below.Ascending ∧ others.Ascending

theorem ascending_ofPath (path : List Text) : (ofPath path).Ascending := by
  induction path with
  | nil => exact trivial
  | cons name path ih => exact ⟨trivial, ih, trivial⟩

theorem above_insert {bound name : Text} {path : List Text} {forest : Forest}
    (hname : bound < name) (habove : forest.Above bound) :
    (forest.insert (name :: path)).Above bound := by
  cases forest with
  | nil => exact hname
  | branch first below others =>
      unfold insert
      split
      · exact hname
      · split
        · exact habove
        · exact habove

theorem ascending_insert {forest : Forest} (h : forest.Ascending) (path : List Text) :
    (forest.insert path).Ascending := by
  induction forest generalizing path with
  | nil =>
      cases path with
      | nil => exact trivial
      | cons name path => exact ascending_ofPath (name :: path)
  | branch first below others ihBelow ihOthers =>
      rcases h with ⟨habove, hbelow, hothers⟩
      cases path with
      | nil => exact ⟨habove, hbelow, hothers⟩
      | cons name path =>
          unfold insert
          split
          · next hlt => exact ⟨hlt, ascending_ofPath path, habove, hbelow, hothers⟩
          · next hge =>
              split
              · exact ⟨habove, ihBelow hbelow path, hothers⟩
              · next hne =>
                  have hgt : first < name :=
                    Decidable.byContradiction fun hnot =>
                      hne (Std.Trichotomous.trichotomous name first hge hnot)
                  exact ⟨above_insert hgt habove, hbelow,
                    ihOthers hothers (name :: path)⟩

theorem ascending_child? {forest below : Forest} {name : Text} (h : forest.Ascending)
    (hchild : forest.child? name = some below) : below.Ascending := by
  induction forest with
  | nil => cases hchild
  | branch first lower others _ ihOthers =>
      unfold child? at hchild
      split at hchild
      · cases hchild
        exact h.2.1
      · exact ihOthers h.2.2 hchild

end Forest

end CallChains
