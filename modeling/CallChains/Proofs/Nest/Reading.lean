import CallChains.Proofs.Chain.Splitting
import CallChains.Proofs.Nest.Rendering

/-!
# Reading a nest back

Reading the written form of a nest gives the tokens of its chains one chain after the
other, and splitting at the identifier gives the chains back.  A closing parenthesis
ends a token only behind the identifier, so a property that stands alone is read
although others would be lost.
-/

namespace CallChains

open Chain Token

variable {identifier : Text}

theorem Name.token_ne_ofIdentifier {name : Name} {mark : Char}
    (h : mark = '.' -> name.text ≠ identifier) :
    name.token mark ≠ Token.ofIdentifier identifier := by
  intro hsame
  have htext : name.text ++ [mark] = identifier ++ ['.'] := congrArg Token.text hsame
  rcases List.append_inj' htext rfl with ⟨hname, hmark⟩
  exact h (List.singleton_inj.mp hmark) hname

theorem Name.token_ne_ofIdentifier_of_ne_dot {name : Name} {mark : Char} (h : mark ≠ '.') :
    name.token mark ≠ Token.ofIdentifier identifier :=
  Name.token_ne_ofIdentifier fun hdot => absurd hdot h

theorem Name.name_token (name : Name) {mark : Char} (h : mark ∈ Token.marks) :
    (name.token mark).name = name.text :=
  name_append name.valid h

namespace Segment

theorem name_token (segment : Segment) : segment.token.name = segment.name.text := by
  cases segment with
  | property name => exact name.name_token (by decide)
  | call name => exact name.name_token (by decide)

theorem name_lastToken (segment : Segment) (depth : Nat) :
    (segment.lastToken depth).name = segment.name.text := by
  cases depth with
  | zero => exact segment.name.name_token (by decide)
  | succ depth =>
      cases segment with
      | property name => exact name.name_token (by decide)
      | call name => exact name.name_token (by decide)

theorem token_ne_ofIdentifier {segment : Segment}
    (h : forall name, segment = property name -> name.text ≠ identifier) :
    segment.token ≠ Token.ofIdentifier identifier := by
  cases segment with
  | property name =>
      apply Name.token_ne_ofIdentifier
      intro _
      exact h name rfl
  | call name => exact Name.token_ne_ofIdentifier_of_ne_dot (by decide)

theorem lastToken_ne_ofIdentifier (segment : Segment) (depth : Nat) :
    segment.lastToken depth ≠ Token.ofIdentifier identifier := by
  cases depth with
  | zero => exact Name.token_ne_ofIdentifier_of_ne_dot (by decide)
  | succ depth =>
      cases segment with
      | property name => exact Name.token_ne_ofIdentifier_of_ne_dot (by decide)
      | call name => exact Name.token_ne_ofIdentifier_of_ne_dot (by decide)

/-!
## Reading segments
-/

theorem next?_written (p : Position) (segment : Segment) (rest : Text) :
    Token.next? p (segment.written ++ '.' :: rest) = some (segment.token, rest) := by
  cases segment with
  | property name => exact next?_mark name.valid (dot_mem_marks p) (by decide)
  | call name =>
      rw [written, List.append_assoc]
      show Token.next? p (name.text ++ '(' :: ')' :: '.' :: rest) = _
      rw [next?_append name.valid (open_mem_marks p), closeCall_dot]
      rfl

theorem next?_last (p : Position) (segment : Segment) :
    Token.next? p (segment.written ++ [';']) = some (segment.lastToken 0, []) := by
  cases segment with
  | property name => exact next?_mark name.valid (semicolon_mem_marks p) (by decide)
  | call name =>
      rw [written, List.append_assoc]
      show Token.next? p (name.text ++ '(' :: ')' :: ';' :: []) = _
      rw [next?_append name.valid (open_mem_marks p), closeCall_semicolon name.valid]
      rfl

/-- Inside of open calls the last call keeps its mark; its closing parenthesis is passed
over and those of the open calls are left. -/
theorem next?_last_call (p : Position) (name : Name) (depth : Nat) :
    Token.next? p ((call name).written ++ (List.replicate (depth + 1) ')' ++ [';'])) =
      some ((call name).lastToken (depth + 1), List.replicate (depth + 1) ')' ++ [';']) := by
  rw [written, List.append_assoc]
  show Token.next? p (name.text ++ '(' :: ')' ::
    (List.replicate (depth + 1) ')' ++ [';'])) = _
  rw [next?_append name.valid (open_mem_marks p), closeCall_closed]
  · rfl
  · simp [List.replicate_succ]
  · simp [List.replicate_succ]

theorem next?_last_property (name : Name) (depth : Nat) :
    Token.next? .behindIdentifier
        ((property name).written ++ (List.replicate (depth + 1) ')' ++ [';'])) =
      some ((property name).lastToken (depth + 1), List.replicate depth ')' ++ [';']) := by
  rw [List.replicate_succ, List.cons_append]
  exact next?_mark name.valid (by decide) (by decide)

end Segment

namespace Nest

theorem reads_writtenFront {id : Token} {rest : Text} {chain : Chain} (front : List Segment)
    (hrest : forall previous, Reads id previous rest chain) (previous : Option Token) :
    Reads id previous (writtenFront front ++ rest) (front.map Segment.token ++ chain) := by
  induction front generalizing previous with
  | nil => exact hrest previous
  | cons segment front ih =>
      have hnext := Segment.next?_written (Position.after id previous) segment
        (writtenFront front ++ rest)
      have htext : writtenFront (segment :: front) ++ rest =
          segment.written ++ '.' :: (writtenFront front ++ rest) := by
        simp [writtenFront]
      rw [htext]
      exact Reads.token hnext (ih (some segment.token))

/-- The closing parentheses of open calls and the semicolon behind them hold no token. -/
theorem reads_closing {id : Token} {previous : Option Token} (depth : Nat) :
    Reads id previous (List.replicate depth ')' ++ [';']) [] := by
  apply Reads.stop
  apply next?_of_head?
  cases depth with
  | zero => simp
  | succ depth => simp [List.replicate_succ]

theorem reads_last {last : Segment} {front : List Segment} {depth : Nat}
    (h : 0 < depth -> forall name, last = Segment.property name -> front = []) :
    Reads (Token.ofIdentifier identifier) (some (Token.ofIdentifier identifier))
      (writtenFront front ++ (last.written ++ (List.replicate depth ')' ++ [';'])))
      (front.map Segment.token ++ [last.lastToken depth]) := by
  cases depth with
  | zero =>
      apply reads_writtenFront
      intro previous
      apply Reads.token (Segment.next?_last _ last)
      exact Reads.stop rfl
  | succ depth =>
      cases last with
      | property name =>
          rw [h (Nat.succ_pos depth) name rfl]
          have hbehind : Position.after (Token.ofIdentifier identifier)
              (some (Token.ofIdentifier identifier)) = .behindIdentifier := if_pos rfl
          apply Reads.token
          · rw [hbehind]
            exact Segment.next?_last_property name depth
          · exact reads_closing depth
      | call name =>
          apply reads_writtenFront
          intro previous
          exact Reads.token (Segment.next?_last_call _ name depth) (reads_closing (depth + 1))

theorem head?_render_ne (hidentifier : isIdentifier identifier = true) (nest : Nest)
    (depth : Nat) : (nest.render identifier depth).head? ≠ some ')' := by
  have hne := (isIdentifier_iff.mp hidentifier).1
  have hclose : ')' ∉ identifier := notMem_of_isIdentifier hidentifier (by decide)
  have hlead : forall rest : Text, (identifier ++ rest).head? ≠ some ')' := by
    intro rest hhead
    rw [List.head?_append_of_ne_nil _ hne] at hhead
    exact hclose (List.mem_of_mem_head? hhead)
  cases nest with
  | chain front last => exact hlead _
  | within front opening inner => exact hlead _

theorem reads_render (hidentifier : isIdentifier identifier = true) {nest : Nest}
    {depth : Nat} (h : nest.Allowed identifier depth) (previous : Option Token) :
    Reads (Token.ofIdentifier identifier) previous (nest.render identifier depth)
      (nest.tokens identifier depth).flatten := by
  induction nest generalizing depth previous with
  | chain front last =>
      rw [tokens, List.flatten_singleton]
      exact Reads.token (next?_ofIdentifier hidentifier _ _) (reads_last h.2)
  | within front opening inner ih =>
      rw [tokens, List.flatten_cons, List.cons_append, List.append_assoc]
      apply Reads.token (next?_ofIdentifier hidentifier _ _)
      apply reads_writtenFront
      intro before
      have hopen : Token.next? (Position.after (Token.ofIdentifier identifier) before)
          (opening.text ++ '(' :: inner.render identifier (depth + 1)) =
            some (opening.token '(', inner.render identifier (depth + 1)) := by
        rw [next?_append opening.valid (open_mem_marks _),
          closeCall_open (head?_render_ne hidentifier inner (depth + 1))]
        rfl
      exact Reads.token hopen (ih h.2 _)

/-!
## Splitting at the identifier
-/

theorem exists_cons_of_mem_tokens {nest : Nest} {depth : Nat}
    (h : nest.Allowed identifier depth) {part : Chain}
    (hpart : part ∈ nest.tokens identifier depth) :
    exists calls : Chain, part = Token.ofIdentifier identifier :: calls ∧
      Token.ofIdentifier identifier ∉ calls := by
  have hfront : forall front : List Segment,
      (forall name, Segment.property name ∈ front -> name.text ≠ identifier) ->
        Token.ofIdentifier identifier ∉ front.map Segment.token := by
    intro front hnames hmem
    rcases List.mem_map.mp hmem with ⟨segment, hsegment, htoken⟩
    apply Segment.token_ne_ofIdentifier _ htoken
    intro name hname
    exact hnames name (hname ▸ hsegment)
  induction nest generalizing depth with
  | chain front last =>
      rw [tokens, List.mem_singleton] at hpart
      refine ⟨_, hpart, ?_⟩
      rw [List.mem_append, List.mem_singleton, not_or]
      exact ⟨hfront front h.1, (last.lastToken_ne_ofIdentifier depth).symm⟩
  | within front opening inner ih =>
      rw [tokens] at hpart
      cases hpart with
      | head =>
          refine ⟨_, rfl, ?_⟩
          rw [List.mem_append, List.mem_singleton, not_or]
          exact ⟨hfront front h.1, (Name.token_ne_ofIdentifier_of_ne_dot (by decide)).symm⟩
      | tail _ hinner => exact ih h.2 hinner

theorem isParts_tokens {nest : Nest} {depth : Nat} (h : nest.Allowed identifier depth) :
    IsParts (Token.ofIdentifier identifier) (nest.tokens identifier depth) := by
  constructor
  · intro part hpart
    rcases exists_cons_of_mem_tokens h hpart with ⟨calls, hcons, _⟩
    rw [hcons]
    exact List.cons_ne_nil _ _
  · intro part hpart
    rcases exists_cons_of_mem_tokens h hpart with ⟨calls, hcons, hfree⟩
    rwa [hcons]
  · intro part hpart
    rcases exists_cons_of_mem_tokens h (List.mem_of_mem_tail hpart) with ⟨calls, hcons, _⟩
    rw [hcons]
    rfl

theorem tokens_ne_nil (nest : Nest) (depth : Nat) :
    (nest.tokens identifier depth).flatten ≠ [] := by
  cases nest with
  | chain front last => simp [tokens]
  | within front opening inner => simp [tokens]

theorem toList_split_read_render (hidentifier : isIdentifier identifier = true) {nest : Nest}
    {depth : Nat} (h : nest.Allowed identifier depth) :
    (Chain.split (Token.ofIdentifier identifier)
        (read (Token.ofIdentifier identifier) (nest.render identifier depth))).toList =
      nest.tokens identifier depth := by
  rw [read_eq_iff.mpr (reads_render hidentifier h none),
    toList_split_eq_iff (nest.tokens_ne_nil depth)]
  exact ⟨rfl, isParts_tokens h⟩

theorem map_calls_tokens (nest : Nest) (depth : Nat) :
    (nest.tokens identifier depth).map calls = nest.chains := by
  induction nest generalizing depth with
  | chain front last =>
      simp [tokens, chains, calls, Segment.name_token, Segment.name_lastToken]
  | within front opening inner ih =>
      have hopening : (opening.token '(').name = opening.text := opening.name_token (by decide)
      simp [tokens, chains, calls, Segment.name_token, hopening, ih]

end Nest

end CallChains
