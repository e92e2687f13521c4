import CallChains.Proofs.Chain.Cutting
import CallChains.Proofs.Chain.Factors

/-!
# Where the tokens of a chain stand

The factors of a statement stand one directly behind the other.  So every token of a chain
has a place in its statement, and what the text goes on with there decides whether the
chain goes on behind the token.

Main statements: every token but the first stands directly behind a mark, and a part of a
chain goes on behind a token exactly if another name with its mark stands directly there.
-/

namespace CallChains

namespace Factor

/-!
## The text of a factor
-/

/-- What may be written behind the name of a token: its mark, or what closes an empty
call. -/
def closings (mark : Char) : List Text :=
  if mark = '(' then [['('], ['(', ')', '.'], ['(', ')']]
  else if mark = ';' then [[';'], ['(', ')', ';']]
  else [[mark]]

structure Written (f : Factor) (closing : Text) : Prop where
  name : isIdentifier f.token.name = true
  closes : exists mark : Char, mark ∈ Token.marks ∧ f.token.mark? = some mark ∧
    closing ∈ closings mark
  text : f.text = f.token.name ++ closing

section Written

variable {name behind closing : Text} {mark : Char} {f : Factor}

theorem written_of_append (hname : isIdentifier name = true) (hmark : mark ∈ Token.marks)
    (hclosing : closing ∈ closings mark) :
    Written ⟨name ++ closing, ⟨name ++ [mark]⟩⟩ closing := by
  have htoken : Token.name ⟨name ++ [mark]⟩ = name := Token.name_append hname hmark
  constructor
  · rw [htoken]
    exact hname
  · exact ⟨mark, hmark, Token.mark?_append hmark, hclosing⟩
  · rw [htoken]

theorem self_mem_closings (hmark : mark ≠ '(') : [mark] ∈ closings mark := by
  unfold closings
  rw [if_neg hmark]
  split
  · next hsemicolon => simp [hsemicolon]
  · exact List.mem_singleton_self [mark]

theorem exists_written_of_stands (hname : isIdentifier name = true)
    (hmark : mark ∈ Token.marks) (hstands : Stands name mark f behind) :
    exists closing : Text, f.Written closing := by
  cases hstands with
  | plain hne => exact ⟨[mark], written_of_append hname hmark (self_mem_closings hne)⟩
  | opened _ => exact ⟨['('], written_of_append hname hmark (by decide)⟩
  | continued => exact ⟨['(', ')', '.'], written_of_append hname hmark (by decide)⟩
  | ended =>
      have hsemicolon : ';' ∈ Token.marks := by decide
      exact ⟨['(', ')', ';'], written_of_append hname hsemicolon (by decide)⟩
  | closed _ _ => exact ⟨['(', ')'], written_of_append hname hmark (by decide)⟩

theorem marks_of_mem_closings (hmark : mark ∈ Token.marks) (hclosing : closing ∈ closings mark) :
    exists first last : Char, first ∈ Token.marks ∧ last ∈ Token.marks ∧
      closing.head? = some first ∧ closing.getLast? = some last := by
  have hopen : '(' ∈ Token.marks := by decide
  have hclose : ')' ∈ Token.marks := by decide
  have hdot : '.' ∈ Token.marks := by decide
  have hsemicolon : ';' ∈ Token.marks := by decide
  unfold closings at hclosing
  split at hclosing
  · simp only [List.mem_cons, List.not_mem_nil, or_false] at hclosing
    rcases hclosing with rfl | rfl | rfl
    · exact ⟨'(', '(', hopen, hopen, rfl, rfl⟩
    · exact ⟨'(', '.', hopen, hdot, rfl, rfl⟩
    · exact ⟨'(', ')', hopen, hclose, rfl, rfl⟩
  · split at hclosing
    · simp only [List.mem_cons, List.not_mem_nil, or_false] at hclosing
      rcases hclosing with rfl | rfl
      · exact ⟨';', ';', hsemicolon, hsemicolon, rfl, rfl⟩
      · exact ⟨'(', ';', hopen, hsemicolon, rfl, rfl⟩
    · rw [List.mem_singleton] at hclosing
      rw [hclosing]
      exact ⟨mark, mark, hmark, hmark, rfl, rfl⟩

end Written

end Factor

namespace Chain

/-!
## The place of a factor
-/

section Factors

variable {identifier : Token} {previous : Option Token} {text rest : Text}
  {factors front back : List Factor} {f : Factor}

theorem factors_eq_nil_iff (h : Factors identifier previous text factors rest) :
    factors = [] <-> ¬ Factor.Begins identifier previous text := by
  cases h with
  | stop hrest => exact iff_of_true rfl hrest
  | factor hname hmark hstands _ =>
      exact iff_of_false (List.cons_ne_nil _ _)
        (not_not_intro (Factor.begins_of_stands hname hmark hstands))

theorem exists_place_of_cons (h : Factors identifier previous text (f :: back) rest) :
    exists closing behind : Text, f.Written closing ∧
      text = f.token.name ++ (closing ++ behind) ∧
      Factors identifier (some f.token) behind back rest := by
  cases h with
  | @factor _ name behind _ mark _ _ hname hmark hstands hback =>
      rcases Factor.exists_written_of_stands hname (Factor.mem_marks_of_mayEnd hmark) hstands
        with ⟨closing, hwritten⟩
      exact ⟨closing, behind, hwritten, by rw [hwritten.text, List.append_assoc], hback⟩

theorem exists_place_of_factors
    (h : Factors identifier previous text (front ++ f :: back) rest) :
    exists closing behind : Text, f.Written closing ∧
      text = front.flatMap Factor.text ++ (f.token.name ++ (closing ++ behind)) ∧
      Factors identifier (some f.token) behind back rest := by
  rcases exists_factors_behind h with ⟨last, tail, rfl, htail⟩
  rcases exists_place_of_cons htail with ⟨closing, behind, hwritten, rfl, hback⟩
  exact ⟨closing, behind, hwritten, rfl, hback⟩

theorem exists_last_of_factors (h : Factors identifier previous text (front ++ f :: back) rest)
    (hfront : front ≠ []) :
    exists (before : Text) (mark : Char), mark ∈ Token.marks ∧
      front.flatMap Factor.text = before ++ [mark] := by
  rcases List.eq_nil_or_concat front with hnil | ⟨earlier, g, rfl⟩
  · exact absurd hnil hfront
  · rw [List.concat_eq_append, List.append_assoc] at h
    rcases exists_place_of_factors h with ⟨closing, _, ⟨_, ⟨mark, hmark, _, hclosing⟩, htext⟩, _⟩
    rcases Factor.marks_of_mem_closings hmark hclosing with ⟨_, last, _, hlast, _, hend⟩
    rcases List.getLast?_eq_some_iff.mp hend with ⟨inner, rfl⟩
    exact ⟨earlier.flatMap Factor.text ++ (g.token.name ++ inner), last, hlast, by simp [htext]⟩

theorem token_eq_ofIdentifier_iff {identifier : Text}
    (hidentifier : isIdentifier identifier = true)
    (h : Factors (Token.ofIdentifier identifier) previous text (f :: back) rest) :
    f.token = Token.ofIdentifier identifier <-> exists after, text = identifier ++ '.' :: after := by
  constructor
  · intro htoken
    rcases exists_place_of_cons h with
      ⟨closing, behind, ⟨_, ⟨mark, _, hmark, hclosing⟩, _⟩, htext, _⟩
    have hname : (Token.ofIdentifier identifier).name = identifier :=
      Token.name_append hidentifier (by decide)
    rw [htoken, Token.mark?_ofIdentifier, Option.some.injEq] at hmark
    rw [← hmark] at hclosing
    have hdot : closing = ['.'] := by simpa [Factor.closings] using hclosing
    refine ⟨behind, ?_⟩
    rw [htext, htoken, hname, hdot]
    rfl
  · intro hafter
    rcases hafter with ⟨after, htext⟩
    have hnext := Token.next?_ofIdentifier hidentifier
      (Position.after (Token.ofIdentifier identifier) previous) after
    rw [← htext] at hnext
    cases h with
    | factor hname hmark hstands _ =>
        rw [Factor.next?_of_stands hname hmark hstands] at hnext
        exact congrArg Prod.fst (Option.some.inj hnext)

end Factors

/-!
## The place of a token
-/

section Parts

variable {identifier : Token} {raw : Text} {earlier later : List Chain} {front back : Chain}
  {t : Token}

/-- A token of a part is read from a factor, and the tokens on either side of it are read
from the factors on that side. -/
theorem exists_factors_of_split
    (h : (split identifier (read identifier raw)).toList =
      earlier ++ (front ++ t :: back) :: later) :
    exists (before after : List Factor) (f : Factor) (rest : Text),
      Factors identifier none raw (before ++ f :: after) rest ∧ f.token = t ∧
        before.map Factor.token = earlier.flatten ++ front ∧
        after.map Factor.token = back ++ later.flatten := by
  rcases exists_factors identifier raw with ⟨factors, rest, hfactors⟩
  have hchain := flatten_toList_split identifier (read identifier raw)
  have htokens : factors.map Factor.token =
      (earlier.flatten ++ front) ++ t :: (back ++ later.flatten) := by
    rw [← read_of_factors hfactors, ← hchain, h]
    simp
  rcases List.map_eq_append_iff.mp htokens with ⟨before, tail, rfl, hbefore, htail⟩
  rcases List.map_eq_cons_iff.mp htail with ⟨f, after, rfl, hf, hafter⟩
  exact ⟨before, after, f, rest, hfactors, hf, hbefore, hafter⟩

theorem exists_marks_around {part : Chain}
    (hpart : part ∈ (split identifier (read identifier raw)).toList) (ht : t ∈ part.tail) :
    isIdentifier t.name = true ∧
      exists (before after : Text) (first last : Char), first ∈ Token.marks ∧
        last ∈ Token.marks ∧ raw = before ++ first :: (t.name ++ last :: after) := by
  cases part with
  | nil => cases ht
  | cons head tail =>
      rcases List.append_of_mem hpart with ⟨earlier, later, hsplit⟩
      rcases List.append_of_mem ht with ⟨front, back, htail⟩
      rw [List.tail_cons] at htail
      rw [htail, ← List.cons_append] at hsplit
      rcases exists_factors_of_split hsplit with ⟨before, after, f, rest, hfactors, rfl, hbefore, _⟩
      have hne : before ≠ [] := by
        rintro rfl
        simp at hbefore
      rcases exists_place_of_factors hfactors with
        ⟨closing, behind, ⟨hname, ⟨mark, hmark, _, hclosing⟩, _⟩, htext, _⟩
      rcases exists_last_of_factors hfactors hne with ⟨inner, first, hfirst, hinner⟩
      rcases Factor.marks_of_mem_closings hmark hclosing with ⟨last, _, hlast, _, hhead, _⟩
      rcases List.head?_eq_some_iff.mp hhead with ⟨closing, rfl⟩
      refine ⟨hname, inner, closing ++ behind, first, last, hfirst, hlast, ?_⟩
      rw [htext, hinner]
      simp

theorem begins_of_mem_later
    (h : (split identifier (read identifier raw)).toList =
      earlier ++ (front ++ t :: back) :: later) {part : Chain} (hpart : part ∈ later) :
    part.head? = some identifier := by
  have htail : part ∈ (split identifier (read identifier raw)).toList.tail := by
    rw [h]
    cases earlier with
    | nil => exact hpart
    | cons first earlier =>
        rw [List.cons_append, List.tail_cons]
        exact List.mem_append_right _ (List.mem_cons_of_mem _ hpart)
  exact begins_of_mem_tail_split htail

/-- A token is the last one of its part exactly if nothing is read behind it but, at most,
the identifier. -/
theorem eq_nil_iff_of_split
    (h : (split identifier (read identifier raw)).toList =
      earlier ++ (front ++ t :: back) :: later) {after : List Factor}
    (hafter : after.map Factor.token = back ++ later.flatten) :
    back = [] <-> forall g, after.head? = some g -> g.token = identifier := by
  constructor
  · rintro rfl g hg
    rcases List.head?_eq_some_iff.mp hg with ⟨gs, rfl⟩
    rw [List.nil_append, List.map_cons] at hafter
    cases later with
    | nil => cases hafter
    | cons part later =>
        rcases List.head?_eq_some_iff.mp (begins_of_mem_later h List.mem_cons_self) with
          ⟨calls, rfl⟩
        rw [List.flatten_cons, List.cons_append] at hafter
        exact (List.cons_eq_cons.mp hafter).1
  · intro hhead
    by_contra hne
    rcases List.exists_cons_of_ne_nil hne with ⟨next, others, rfl⟩
    rcases List.map_eq_cons_iff.mp hafter with ⟨g, gs, rfl, hg, _⟩
    have hmem : front ++ t :: next :: others ∈ (split identifier (read identifier raw)).toList := by
      rw [h]
      exact List.mem_append_right _ List.mem_cons_self
    apply notMem_tail_of_mem_split hmem
    rw [← hhead g rfl, hg]
    cases front <;> simp

end Parts

/-!
## Going on behind a token
-/

/-- A name that goes on with a chain begins the text: it has a mark of the grammar and is not
the identifier with its dot. -/
def GoesOn (identifier text : Text) : Prop :=
  exists (name : Text) (mark : Char) (rest : Text), isIdentifier name = true ∧
    mark ∈ Position.elsewhere.marks ∧ text = name ++ mark :: rest ∧
    ¬ (name = identifier ∧ mark = '.')

section GoingOn

variable {identifier raw text rest : Text} {earlier later : List Chain} {front back : Chain}
  {t : Token}

theorem not_goesOn_of_head? (h : forall c, text.head? = some c -> ¬ c.isAlphanum = true) :
    ¬ GoesOn identifier text := by
  intro hgoes
  rcases hgoes with ⟨name, mark, rest, hname, _, rfl, _⟩
  rcases isIdentifier_iff.mp hname with ⟨hne, hall⟩
  rcases List.exists_cons_of_ne_nil hne with ⟨c, name, rfl⟩
  exact h c rfl (hall c List.mem_cons_self)

theorem name_mark_unique {name other behind after : Text} {mark c : Char}
    (hname : isIdentifier name = true) (hother : isIdentifier other = true)
    (hmark : mark ∈ Position.elsewhere.marks) (hc : c ∈ Position.elsewhere.marks)
    (h : name ++ mark :: behind = other ++ c :: after) : name = other ∧ mark = c := by
  have hread : Token.read? .elsewhere (name ++ mark :: behind) = some (⟨name ++ [mark]⟩, behind) :=
    Token.read?_append hname hmark
  rw [h, Token.read?_append hother hc, Option.some.injEq, Prod.mk.injEq, Token.mk.injEq] at hread
  have hsame := List.append_inj' hread.1.symm rfl
  exact ⟨hsame.1, List.cons.inj hsame.2 |>.1⟩

theorem goesOn_iff (hidentifier : isIdentifier identifier = true)
    (ht : t ≠ Token.ofIdentifier identifier) {after : List Factor}
    (h : Factors (Token.ofIdentifier identifier) (some t) text after rest) :
    GoesOn identifier text <->
      exists g, after.head? = some g ∧ g.token ≠ Token.ofIdentifier identifier := by
  have hposition : Position.after (Token.ofIdentifier identifier) (some t) = .elsewhere :=
    if_neg (by simpa using ht)
  have hmarks : forall mark,
      Factor.MayEnd (Token.ofIdentifier identifier) (some t) mark <->
        mark ∈ Position.elsewhere.marks := by
    intro mark
    rw [← Factor.mem_marks_iff_mayEnd, hposition]
  constructor
  · intro hgoes
    rcases hgoes with ⟨name, mark, behind, hname, hmark, htext, hnot⟩
    cases after with
    | nil =>
        exact absurd ⟨name, mark, behind, hname, (hmarks mark).mpr hmark, htext⟩
          ((factors_eq_nil_iff h).mp rfl)
    | cons g gs =>
        refine ⟨g, rfl, ?_⟩
        intro hg
        rcases (token_eq_ofIdentifier_iff hidentifier h).mp hg with ⟨behind', htext'⟩
        rw [htext] at htext'
        exact hnot (name_mark_unique hname hidentifier hmark (by decide) htext')
  · intro hg
    rcases hg with ⟨g, hhead, hne⟩
    rcases List.head?_eq_some_iff.mp hhead with ⟨gs, rfl⟩
    have hbegins : Factor.Begins (Token.ofIdentifier identifier) (some t) text := by
      by_contra hnot
      exact List.cons_ne_nil g gs ((factors_eq_nil_iff h).mpr hnot)
    rcases hbegins with ⟨name, mark, behind, hname, hmark, htext⟩
    refine ⟨name, mark, behind, hname, (hmarks mark).mp hmark, htext, ?_⟩
    rintro ⟨rfl, rfl⟩
    exact hne ((token_eq_ofIdentifier_iff hidentifier h).mpr ⟨behind, htext⟩)

/-- Every token but the identifier has a place in the statement, where its part goes on exactly
if the text does. -/
theorem exists_place_of_split (hidentifier : isIdentifier identifier = true)
    (h : (split (Token.ofIdentifier identifier)
        (read (Token.ofIdentifier identifier) raw)).toList =
      earlier ++ (front ++ t :: back) :: later) (ht : t ≠ Token.ofIdentifier identifier) :
    exists (mark : Char) (closing before behind : Text), t.mark? = some mark ∧
      closing ∈ Factor.closings mark ∧ raw = before ++ (t.name ++ (closing ++ behind)) ∧
      (back ≠ [] <-> GoesOn identifier behind) ∧
      forall next others, back = next :: others ->
        exists after : Text, behind = next.name ++ after := by
  rcases exists_factors_of_split h with ⟨before, after, f, rest, hfactors, rfl, _, hafter⟩
  rcases exists_place_of_factors hfactors with
    ⟨closing, behind, ⟨_, ⟨mark, _, hmark, hclosing⟩, _⟩, htext, hbehind⟩
  refine ⟨mark, closing, before.flatMap Factor.text, behind, hmark, hclosing, htext, ?_, ?_⟩
  · rw [goesOn_iff hidentifier ht hbehind, ne_eq, eq_nil_iff_of_split h hafter]
    simp
  · rintro next others rfl
    rcases List.map_eq_cons_iff.mp hafter with ⟨g, gs, rfl, rfl, _⟩
    rcases exists_place_of_cons hbehind with ⟨closing', behind', _, htext', _⟩
    exact ⟨closing' ++ behind', htext'⟩

end GoingOn

end Chain

end CallChains
