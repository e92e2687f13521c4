import CallChains.FirstSeen
import Mathlib.Data.Finset.Card
import Std.Data.HashSet.Lemmas

/-!
# The theory of first occurrences

Meeting the elements one by one, with the set of those met so far, erases exactly
the repetitions: what is kept is the list without its duplicates, each element at
its first occurrence.  The number of kept elements is the number of distinct ones,
which depends on the members of the list only.

Where every element is replaced by a list of others, repetitions may be left out before
as well as afterwards: what comes of a repetition has come of the first occurrence already.

Of a list behind another one only those elements are kept that the first one does not have.
From this the kept elements are known by their places, without a set of those met so far, and
several lists that are taken in turn keep together what they keep as one list.
-/

namespace CallChains

namespace FirstSeen

variable {α : Type} [BEq α] [Hashable α]

/-!
## One element after another
-/

theorem meet_of_contains {s : State α} {x : α} (h : s.seen.contains x = true) :
    s.meet x = s := by
  rw [State.meet, if_pos h]

theorem meet_of_not_contains {s : State α} {x : α} (h : s.seen.contains x = false) :
    s.meet x = ⟨s.seen.insert x, x :: s.reversed⟩ := by
  rw [State.meet, if_neg (by rw [h]; exact Bool.false_ne_true)]

variable [LawfulBEq α]

theorem contains_seen_meet (s : State α) (x y : α) :
    (s.meet x).seen.contains y = (x == y || s.seen.contains y) := by
  cases hseen : s.seen.contains x with
  | true =>
      rw [meet_of_contains hseen]
      by_cases hy : x = y
      · rw [← hy, hseen, Bool.or_true]
      · simp [hy]
  | false => rw [meet_of_not_contains hseen, Std.HashSet.contains_insert]

theorem contains_foldl_meet (s : State α) (xs : List α) (y : α) :
    (xs.foldl State.meet s).seen.contains y = (s.seen.contains y || xs.contains y) := by
  induction xs generalizing s with
  | nil => simp
  | cons x xs ih =>
      rw [List.foldl_cons, ih, contains_seen_meet, List.contains_cons, Bool.beq_comm,
        Bool.or_assoc, Bool.or_left_comm]

theorem filter_insert (seen : Std.HashSet α) (x : α) (xs : List α) :
    (xs.filter fun y => !(seen.insert x).contains y) =
      (xs.filter fun y => !seen.contains y).filter fun y => !y == x := by
  rw [List.filter_filter]
  congr 1
  funext y
  rw [Std.HashSet.contains_insert, Bool.not_or, Bool.beq_comm]

/-- The invariant of the loop: in front of what was kept before stand the new
elements at their first occurrences. -/
theorem reversed_foldl_meet (s : State α) (xs : List α) :
    (xs.foldl State.meet s).reversed =
      (xs.filter fun x => !s.seen.contains x).eraseDups.reverse ++ s.reversed := by
  induction xs generalizing s with
  | nil => rfl
  | cons x xs ih =>
      rw [List.foldl_cons, ih]
      cases hseen : s.seen.contains x with
      | true =>
          rw [meet_of_contains hseen, List.filter_cons_of_neg (by simp [hseen])]
      | false =>
          rw [meet_of_not_contains hseen, List.filter_cons_of_pos (by simp [hseen]),
            List.eraseDups_cons, filter_insert]
          simp

theorem fst_distinctFrom (seen : Std.HashSet α) (xs : List α) :
    (distinctFrom seen xs).1 = (xs.filter fun x => !seen.contains x).eraseDups := by
  show (xs.foldl State.meet ⟨seen, []⟩).reversed.reverse = _
  rw [reversed_foldl_meet]
  simp

theorem contains_snd_distinctFrom (seen : Std.HashSet α) (xs : List α) (y : α) :
    (distinctFrom seen xs).2.contains y = (seen.contains y || xs.contains y) :=
  contains_foldl_meet ⟨seen, []⟩ xs y

theorem distinct_eq_eraseDups (xs : List α) : distinct xs = xs.eraseDups := by
  unfold distinct
  rw [fst_distinctFrom]
  simp

/-!
## Counting distinct elements
-/

theorem mem_distinct_iff {x : α} {xs : List α} : x ∈ distinct xs <-> x ∈ xs := by
  rw [distinct_eq_eraseDups, List.mem_eraseDups]

omit [Hashable α] in
theorem nodup_eraseDups (xs : List α) : xs.eraseDups.Nodup := by
  cases xs with
  | nil => exact List.nodup_nil
  | cons x xs =>
      rw [List.eraseDups_cons, List.nodup_cons]
      refine ⟨?_, nodup_eraseDups _⟩
      simp
termination_by xs.length
decreasing_by exact Nat.lt_succ_of_le (List.length_filter_le _ _)

theorem nodup_distinct (xs : List α) : (distinct xs).Nodup := by
  rw [distinct_eq_eraseDups]
  exact nodup_eraseDups xs

theorem length_distinct [DecidableEq α] (xs : List α) :
    (distinct xs).length = xs.toFinset.card := by
  rw [← List.toFinset_card_of_nodup (nodup_distinct xs)]
  congr 1
  ext x
  rw [List.mem_toFinset, List.mem_toFinset, mem_distinct_iff]

/-!
## Lists in the place of elements
-/

section FlatMap

omit [Hashable α]

theorem flatMap_filter_of_nil {β : Type} {f : α -> List β} {x : α} (h : f x = [])
    (xs : List α) : (xs.filter fun y => !y == x).flatMap f = xs.flatMap f := by
  induction xs with
  | nil => rfl
  | cons y xs ih =>
      by_cases hy : y = x
      · rw [List.filter_cons_of_neg (by simp [hy]), List.flatMap_cons, hy, h, ih,
          List.nil_append]
      · rw [List.filter_cons_of_pos (by simp [hy]), List.flatMap_cons, List.flatMap_cons, ih]

theorem eraseDups_flatMap_eraseDups {β : Type} [BEq β] [LawfulBEq β] (f : α -> List β)
    (xs : List α) : (xs.eraseDups.flatMap f).eraseDups = (xs.flatMap f).eraseDups := by
  match xs with
  | [] => rfl
  | x :: xs =>
      -- What comes of `x` is there already, so `g` leaves it out of everything that follows.
      let g : α -> List β := fun y => (f y).removeAll (f x)
      have hremove : forall ys : List α, (ys.flatMap f).removeAll (f x) = ys.flatMap g := by
        intro ys
        exact List.filter_flatMap
      have hnone : g x = [] := by
        simp [g, List.removeAll]
      have hlater :
          ((xs.filter fun y => !y == x).eraseDups.flatMap g).eraseDups =
            ((xs.filter fun y => !y == x).flatMap g).eraseDups :=
        eraseDups_flatMap_eraseDups g _
      rw [List.eraseDups_cons, List.flatMap_cons, List.flatMap_cons, List.eraseDups_append,
        List.eraseDups_append, hremove, hremove, hlater, flatMap_filter_of_nil hnone]
termination_by xs.length
decreasing_by exact Nat.lt_succ_of_le (List.length_filter_le _ _)

end FlatMap

theorem distinct_flatMap_distinct {β : Type} [BEq β] [Hashable β] [LawfulBEq β]
    (f : α -> List β) (xs : List α) :
    distinct ((distinct xs).flatMap f) = distinct (xs.flatMap f) := by
  rw [distinct_eq_eraseDups, distinct_eq_eraseDups, distinct_eq_eraseDups,
    eraseDups_flatMap_eraseDups]

/-!
## Lists after one another
-/

omit [Hashable α] in
/-- Whether an element is kept has nothing to do with the elements that differ from it. -/
theorem eraseDups_filter (keep : α -> Bool) (xs : List α) :
    (xs.filter keep).eraseDups = xs.eraseDups.filter keep := by
  match xs with
  | [] => rfl
  | x :: xs =>
      have hlater : ((xs.filter fun y => !y == x).filter keep).eraseDups =
          (xs.filter fun y => !y == x).eraseDups.filter keep :=
        eraseDups_filter keep _
      cases hx : keep x with
      | true =>
          rw [List.filter_cons_of_pos hx, List.eraseDups_cons, List.eraseDups_cons,
            List.filter_cons_of_pos hx, ← hlater, List.filter_comm]
      | false =>
          have hneg : ¬ keep x = true := by simp [hx]
          -- The repetitions of `x` go with `x`, so there is nothing left to erase.
          have hothers : (xs.filter fun y => !y == x).filter keep = xs.filter keep := by
            rw [List.filter_filter]
            apply List.filter_congr
            intro y _
            by_cases hy : y = x
            · simp [hy, hx]
            · simp [hy]
          rw [List.filter_cons_of_neg hneg, List.eraseDups_cons, List.filter_cons_of_neg hneg,
            ← hlater, hothers]
termination_by xs.length
decreasing_by exact Nat.lt_succ_of_le (List.length_filter_le _ _)

theorem distinct_append (xs ys : List α) :
    distinct (xs ++ ys) = distinct xs ++ (distinct ys).filter (· ∉ xs) := by
  have hremove : ys.removeAll xs = ys.filter (· ∉ xs) := by
    apply List.filter_congr
    intro y _
    simp
  rw [distinct_eq_eraseDups, distinct_eq_eraseDups, distinct_eq_eraseDups,
    List.eraseDups_append, hremove, eraseDups_filter]

theorem distinct_distinct (xs : List α) : distinct (distinct xs) = distinct xs := by
  have h := distinct_flatMap_distinct (fun x => [x]) xs
  rwa [List.flatMap_singleton', List.flatMap_singleton'] at h

/-!
## The places of the kept elements
-/

section Places

omit [Hashable α]

def firsts (xs : List α) : List α :=
  (xs.zipIdx.filter fun entry => entry.1 ∉ xs.take entry.2).map Prod.fst

theorem firsts_sublist (xs : List α) : (firsts xs).Sublist xs := by
  have h : (firsts xs).Sublist (xs.zipIdx.map Prod.fst) := List.filter_sublist.map _
  rwa [List.zipIdx_map_fst] at h

theorem firsts_concat (xs : List α) (x : α) :
    firsts (xs ++ [x]) = firsts xs ++ [x].filter (· ∉ xs) := by
  have hfront : (xs.zipIdx.filter fun entry => entry.1 ∉ (xs ++ [x]).take entry.2) =
      xs.zipIdx.filter fun entry => entry.1 ∉ xs.take entry.2 := by
    apply List.filter_congr
    intro entry hentry
    have hlt : entry.2 < 0 + xs.length := (List.mem_zipIdx hentry).2.1
    rw [List.take_append_of_le_length (by omega)]
  have hlast : (([x].zipIdx (0 + xs.length)).filter
      fun entry => entry.1 ∉ (xs ++ [x]).take entry.2).map Prod.fst = [x].filter (· ∉ xs) := by
    by_cases hx : x ∈ xs
    · simp [hx]
    · simp [hx]
  rw [firsts, List.zipIdx_append, List.filter_append, hfront, List.map_append, hlast]
  rfl

/-- Of `xs` the list `kept` has the first occurrences and nothing else. -/
structure KeepsFirsts (xs kept : List α) : Prop where
  eq_firsts : kept = firsts xs
  sublist : kept.Sublist xs
  nodup : kept.Nodup
  mem_iff : forall x, x ∈ kept <-> x ∈ xs

end Places

theorem distinct_eq_firsts (xs : List α) : distinct xs = firsts xs := by
  induction xs using List.reverseRecOn with
  | nil =>
      rw [distinct_eq_eraseDups]
      rfl
  | append_singleton xs x ih =>
      have hsingle : distinct [x] = [x] := by
        rw [distinct_eq_eraseDups]
        rfl
      rw [distinct_append, ih, hsingle, firsts_concat]

example : firsts [2, 1, 2, 3, 1] = [2, 1, 3] := by decide

theorem keepsFirsts_distinct (xs : List α) : KeepsFirsts xs (distinct xs) := by
  constructor
  · exact distinct_eq_firsts xs
  · rw [distinct_eq_firsts]
    exact firsts_sublist xs
  · exact nodup_distinct xs
  · intro x
    exact mem_distinct_iff

/-!
## Several lists in turn
-/

/-- What `news` does with one list, given the answers so far, the last one first, and the
elements met. -/
def handOn (s : List (List α) × Std.HashSet α) (xs : List α) :
    List (List α) × Std.HashSet α :=
  ((distinctFrom s.2 xs).1 :: s.1, (distinctFrom s.2 xs).2)

omit [LawfulBEq α] in
theorem news_eq (lists : List (List α)) :
    news lists = (lists.foldl handOn ([], ∅)).1.reverse := rfl

theorem contains_foldl_handOn (s : List (List α) × Std.HashSet α) (lists : List (List α))
    (x : α) :
    (lists.foldl handOn s).2.contains x = (s.2.contains x || lists.flatten.contains x) := by
  induction lists generalizing s with
  | nil => simp
  | cons xs lists ih =>
      rw [List.foldl_cons, ih, handOn, contains_snd_distinctFrom, List.flatten_cons,
        Bool.or_assoc, List.contains_append]

theorem news_concat (lists : List (List α)) (xs : List α) :
    news (lists ++ [xs]) = news lists ++ [(distinct xs).filter (· ∉ lists.flatten)] := by
  have hnew : (distinctFrom (lists.foldl handOn ([], ∅)).2 xs).1 =
      (distinct xs).filter (· ∉ lists.flatten) := by
    rw [fst_distinctFrom, distinct_eq_eraseDups, eraseDups_filter]
    apply List.filter_congr
    intro x _
    rw [contains_foldl_handOn, Std.HashSet.contains_empty, Bool.false_or, List.contains_eq_mem,
      decide_not]
  rw [news_eq, List.foldl_append, List.foldl_cons, List.foldl_nil, handOn, List.reverse_cons,
    ← news_eq, hnew]

theorem length_news (lists : List (List α)) : (news lists).length = lists.length := by
  induction lists using List.reverseRecOn with
  | nil => rfl
  | append_singleton lists xs ih =>
      rw [news_concat, List.length_append, List.length_append, ih]
      rfl

theorem flatten_news (lists : List (List α)) : (news lists).flatten = distinct lists.flatten := by
  induction lists using List.reverseRecOn with
  | nil =>
      rw [distinct_eq_eraseDups]
      rfl
  | append_singleton lists xs ih =>
      rw [news_concat, List.flatten_append, List.flatten_append, ih, List.flatten_singleton,
        List.flatten_singleton, distinct_append]

end FirstSeen

end CallChains
