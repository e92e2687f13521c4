import CallChains.Proofs.Text.Decoding
import Mathlib.Data.List.SplitBy

/-!
# Runs of bytes and of characters

A run of a list is a longest piece of neighbours that are all of one kind.  Bytes are of two
kinds, the single ones and the others, and so are characters, those of single bytes and the
others.

Main statement: the runs of a decoded text are the runs of its bytes, one by one.  A run of
single bytes is kept, and another run becomes one or more characters of the other kind.
-/

namespace CallChains

section Lists

variable {α : Type} {p : α -> Bool}

def runs (p : α -> Bool) (xs : List α) : List (List α) :=
  xs.splitBy fun x y => p x == p y

/-- No piece is empty, all elements of a piece are of one kind, and neighbours are of
different kinds. -/
structure AreRuns (p : α -> Bool) (pieces : List (List α)) : Prop where
  nonempty : [] ∉ pieces
  alike : forall piece, piece ∈ pieces -> exists kind, forall x, x ∈ piece -> p x = kind
  alternate : pieces.IsChain fun piece next =>
    exists kind, (forall x, x ∈ piece -> p x = kind) ∧ forall y, y ∈ next -> p y = !kind

theorem eq_of_isChain {x : α} {xs : List α}
    (h : (x :: xs).IsChain fun x y => (p x == p y) = true) :
    forall y, y ∈ x :: xs -> p y = p x := by
  induction xs generalizing x with
  | nil =>
      intro y hy
      rw [List.mem_singleton.mp hy]
  | cons next xs ih =>
      rcases List.isChain_cons_cons.mp h with ⟨hnext, hchain⟩
      rw [List.forall_mem_cons]
      refine ⟨rfl, ?_⟩
      intro y hy
      rw [ih hchain y hy, eq_of_beq hnext]

theorem exists_kind_of_isChain {piece : List α}
    (h : piece.IsChain fun x y => (p x == p y) = true) :
    exists kind, forall x, x ∈ piece -> p x = kind := by
  cases piece with
  | nil => exact ⟨true, List.forall_mem_nil _⟩
  | cons x piece => exact ⟨p x, eq_of_isChain h⟩

theorem areRuns_runs (p : α -> Bool) (xs : List α) : AreRuns p (runs p xs) := by
  have halike : forall piece, piece ∈ runs p xs ->
      exists kind, forall x, x ∈ piece -> p x = kind := by
    intro piece hpiece
    exact exists_kind_of_isChain (List.isChain_of_mem_splitBy hpiece)
  constructor
  · exact List.nil_notMem_splitBy _ xs
  · exact halike
  · refine List.IsChain.imp_of_mem_imp ?_ (List.isChain_getLast_head_splitBy _ xs)
    intro piece next hpiece hnext hborder
    rcases hborder with ⟨hpne, hnne, hborder⟩
    rcases halike piece hpiece with ⟨kind, hkind⟩
    rcases halike next hnext with ⟨other, hother⟩
    rw [hkind _ (List.getLast_mem hpne), hother _ (List.head_mem hnne)] at hborder
    have hkinds : other = !kind := Bool.eq_not.mpr (Ne.symm (ne_of_beq_false hborder))
    rw [hkinds] at hother
    exact ⟨kind, hkind, hother⟩

theorem AreRuns.runs_flatten {pieces : List (List α)} (h : AreRuns p pieces) :
    runs p pieces.flatten = pieces := by
  apply List.splitBy_flatten h.nonempty
  · intro piece hpiece
    rcases h.alike piece hpiece with ⟨kind, hkind⟩
    apply List.Pairwise.isChain
    rw [List.pairwise_iff_forall_sublist]
    intro x y hxy
    have hx := hkind x (hxy.subset (by simp))
    have hy := hkind y (hxy.subset (by simp))
    rw [hx, hy, beq_self_eq_true]
  · refine List.IsChain.imp_of_mem_imp ?_ h.alternate
    intro piece next hpiece hnext hkinds
    rcases hkinds with ⟨kind, hkind, hother⟩
    have hpne : piece ≠ [] := ne_of_mem_of_not_mem hpiece h.nonempty
    have hnne : next ≠ [] := ne_of_mem_of_not_mem hnext h.nonempty
    refine ⟨hpne, hnne, ?_⟩
    rw [hkind _ (List.getLast_mem hpne), hother _ (List.head_mem hnne)]
    cases kind <;> rfl

theorem AreRuns.of_cons {piece : List α} {pieces : List (List α)}
    (h : AreRuns p (piece :: pieces)) : AreRuns p pieces := by
  constructor
  · intro hnil
    exact h.nonempty (List.mem_cons_of_mem piece hnil)
  · exact (List.forall_mem_cons.mp h.alike).2
  · exact h.alternate.tail

theorem AreRuns.head?_flatten {piece : List α} {pieces : List (List α)} {kind : Bool}
    (h : AreRuns p (piece :: pieces)) (hkind : forall x, x ∈ piece -> p x = kind) :
    forall y, y ∈ pieces.flatten.head? -> p y = !kind := by
  rcases h with ⟨hne, _, halternate⟩
  intro y hy
  cases pieces with
  | nil => cases hy
  | cons next pieces =>
      rcases (List.isChain_cons_cons.mp halternate).1 with ⟨other, hother, hnext⟩
      cases piece with
      | nil => exact absurd List.mem_cons_self hne
      | cons x piece =>
          cases next with
          | nil => exact absurd (List.mem_cons_of_mem _ List.mem_cons_self) hne
          | cons z next =>
              cases hy
              have hx : kind = other := by
                rw [← hkind x List.mem_cons_self, hother x List.mem_cons_self]
              rw [hnext y List.mem_cons_self, hx]

end Lists

namespace Utf8

inductive Becomes : List UInt8 -> Text -> Prop where
  | kept {run : List UInt8} (single : forall b, b ∈ run -> isSingle b = true) :
      Becomes run (run.map ofSingle)
  | replaced {run : List UInt8} {piece : Text}
      (foreign : forall b, b ∈ run -> isSingle b = false) (nonempty : piece ≠ [])
      (nowhere : forall c, c ∈ piece -> hasSingle c = false) : Becomes run piece

/-- Runs are decoded one by one: at each border there is a single byte on one side. -/
theorem decode_flatten {pieces : List (List UInt8)} (h : AreRuns isSingle pieces) :
    decode pieces.flatten = (pieces.map decode).flatten := by
  induction pieces with
  | nil => rfl
  | cons piece pieces ih =>
      rcases h.alike piece List.mem_cons_self with ⟨kind, hkind⟩
      rw [List.flatten_cons, List.map_cons, List.flatten_cons, ← ih h.of_cons]
      cases kind with
      | true => rw [decode_append_of_single hkind, decode_of_single hkind]
      | false => exact decode_append_of_head (h.head?_flatten hkind)

theorem areRuns_map_decode {pieces : List (List UInt8)} (h : AreRuns isSingle pieces) :
    AreRuns hasSingle (pieces.map decode) := by
  constructor
  · intro hnil
    rcases List.mem_map.mp hnil with ⟨piece, hpiece, hdecode⟩
    exact decode_ne_nil (ne_of_mem_of_not_mem hpiece h.nonempty) hdecode
  · intro text htext
    rcases List.mem_map.mp htext with ⟨piece, hpiece, rfl⟩
    rcases h.alike piece hpiece with ⟨kind, hkind⟩
    exact ⟨kind, hasSingle_of_mem_decode hkind⟩
  · rw [List.isChain_map]
    refine List.IsChain.imp ?_ h.alternate
    intro piece next hkinds
    rcases hkinds with ⟨kind, hkind, hother⟩
    exact ⟨kind, hasSingle_of_mem_decode hkind, hasSingle_of_mem_decode hother⟩

theorem runs_decode (bytes : List UInt8) :
    runs hasSingle (decode bytes) = (runs isSingle bytes).map decode := by
  have h := areRuns_runs isSingle bytes
  have hbytes : (runs isSingle bytes).flatten = bytes := List.flatten_splitBy _ bytes
  rw [← (areRuns_map_decode h).runs_flatten, ← decode_flatten h, hbytes]

theorem becomes_decode {run : List UInt8} {kind : Bool} (hne : run ≠ [])
    (h : forall b, b ∈ run -> isSingle b = kind) : Becomes run (decode run) := by
  cases kind with
  | true =>
      rw [decode_of_single h]
      exact .kept h
  | false => exact .replaced h (decode_ne_nil hne) (hasSingle_of_mem_decode h)

theorem forall₂_becomes_runs (bytes : List UInt8) :
    List.Forall₂ Becomes (runs isSingle bytes) (runs hasSingle (decode bytes)) := by
  rw [runs_decode, List.forall₂_map_right_iff, List.forall₂_same]
  intro run hrun
  have h := areRuns_runs isSingle bytes
  rcases h.alike run hrun with ⟨kind, hkind⟩
  exact becomes_decode (ne_of_mem_of_not_mem hrun h.nonempty) hkind

end Utf8

end CallChains
