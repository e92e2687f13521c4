import CallChains.Proofs.Report.Summary
import CallChains.Survey.Log

/-!
# The first occurrences in a survey

A survey leaves out repetitions by one rule: an element stays if no element in front of it
equals it.  For texts the rule is applied to the texts of the matches.  For chains it is
applied to those that have tokens, stage after stage with one set of the chains met so far,
and two chains are equal only if their tokens are written alike, with the same marks.

Main statements: what is kept are the first occurrences, whatever the list and wherever it is
divided, and the log of a survey that is reported shows each kept chain once, in the same
order.
-/

namespace CallChains

namespace Chain

/-- Chains are compared by all that is written in their tokens, the marks included. -/
theorem map_text_inj {chain other : Chain} :
    chain.map Token.text = other.map Token.text <-> chain = other := by
  have hinj : Function.Injective Token.text := by
    intro t u h
    cases t
    cases u
    exact congrArg Token.mk h
  exact List.map_inj_right hinj

end Chain

namespace Survey

/-!
## Surveys of any chains
-/

theorem exists_allChains_eq (chains : List Chain) : exists s : Survey, s.allChains = chains := by
  refine ⟨⟨⟨[], by decide⟩, [], [⟨[], [], .parts chains⟩]⟩, ?_⟩
  exact List.flatMap_singleton _ _

theorem chains_of_allChains_eq_chains {s again : Survey} (h : again.allChains = s.chains) :
    again.chains = s.chains := by
  have hfull : s.chains.filter (!·.isEmpty) = s.chains := by
    apply List.filter_eq_self.mpr
    intro chain hchain
    simpa using (mem_chains_iff.mp hchain).2
  rw [chains_eq_distinct again, h, hfull, chains_eq_distinct s, FirstSeen.distinct_distinct]

theorem chains_of_allChains_append {s later both : Survey}
    (h : both.allChains = s.allChains ++ later.allChains) :
    both.chains = s.chains ++ later.chains.filter (· ∉ s.allChains) := by
  -- No kept chain is empty, so the empty chains of `s` take nothing away from `later`.
  have hnew : later.chains.filter (· ∉ s.allChains.filter (!·.isEmpty)) =
      later.chains.filter (· ∉ s.allChains) := by
    apply List.filter_congr
    intro chain hchain
    have hne := (mem_chains_iff.mp hchain).2
    simp [hne]
  rw [chains_eq_distinct both, h, List.filter_append, FirstSeen.distinct_append,
    ← chains_eq_distinct s, ← chains_eq_distinct later, hnew]

/-!
## The log of the kept chains
-/

theorem filter_stageLog (stage : Stage) (fresh : List Chain) :
    (stage.log fresh).filter (· matches .chainFound _) = fresh.map .chainFound := by
  have hcuts : (stage.split.cuts.map fun cut => Log.Record.chainCut cut.start cut.chain).filter
      (· matches .chainFound _) = [] := by
    apply List.filter_eq_nil_iff.mpr
    intro record hrecord
    rcases List.mem_map.mp hrecord with ⟨cut, _, rfl⟩
    exact Bool.false_ne_true
  have hfound : (fresh.map Log.Record.chainFound).filter (· matches .chainFound _) =
      fresh.map .chainFound := by
    apply List.filter_eq_self.mpr
    intro record hrecord
    rcases List.mem_map.mp hrecord with ⟨chain, _, rfl⟩
    rfl
  rw [Stage.log, List.filter_append, hcuts, hfound, List.nil_append]

theorem filter_zipWith_stageLog {stages : List Stage} {lists : List (List Chain)}
    (h : lists.length = stages.length) :
    (List.zipWith Stage.log stages lists).flatten.filter (· matches .chainFound _) =
      lists.flatten.map .chainFound := by
  induction stages generalizing lists with
  | nil =>
      rw [List.length_eq_zero_iff.mp h]
      rfl
  | cons stage stages ih =>
      rcases List.exists_cons_of_length_eq_add_one h with ⟨fresh, lists, rfl⟩
      rw [List.zipWith_cons_cons, List.flatten_cons, List.filter_append, filter_stageLog,
        ih (Nat.succ.inj h), List.flatten_cons, List.map_append]

theorem filter_chainFound_log (s : Survey) (report : Report) :
    (s.log (some report)).filter (· matches .chainFound _) = s.chains.map .chainFound := by
  have hlength : (FirstSeen.news s.chainLists).length = s.stages.length := by
    rw [FirstSeen.length_news, chainLists, List.length_map]
  have hstages := filter_zipWith_stageLog hlength
  rw [FirstSeen.flatten_news] at hstages
  rw [log, List.filter_cons_of_neg Bool.false_ne_true, List.cons_append,
    List.filter_cons_of_neg Bool.false_ne_true, List.filter_append, hstages]
  exact List.append_nil _

/-!
## Both lists without repetitions
-/

theorem keeps_first_occurrences :
    (forall texts others : List Text,
      FirstSeen.KeepsFirsts texts (FirstSeen.distinct texts) ∧
        FirstSeen.distinct (FirstSeen.distinct texts) = FirstSeen.distinct texts ∧
        FirstSeen.distinct (texts ++ others) =
          FirstSeen.distinct texts ++ (FirstSeen.distinct others).filter (· ∉ texts)) ∧
      (forall s : Survey,
        FirstSeen.KeepsFirsts (s.allChains.filter (!·.isEmpty)) s.chains ∧
          (forall again : Survey, again.allChains = s.chains -> again.chains = s.chains) ∧
          forall later both : Survey, both.allChains = s.allChains ++ later.allChains ->
            both.chains = s.chains ++ later.chains.filter (· ∉ s.allChains)) ∧
      (forall chains : List Chain, exists s : Survey, s.allChains = chains) ∧
      forall chain other : Chain,
        chain = other <-> chain.map Token.text = other.map Token.text := by
  refine ⟨?_, ?_, exists_allChains_eq, ?_⟩
  · intro texts others
    exact ⟨FirstSeen.keepsFirsts_distinct texts, FirstSeen.distinct_distinct texts,
      FirstSeen.distinct_append texts others⟩
  · intro s
    refine ⟨?_, ?_, ?_⟩
    · rw [chains_eq_distinct]
      exact FirstSeen.keepsFirsts_distinct _
    · intro again hagain
      exact chains_of_allChains_eq_chains hagain
    · intro later both hboth
      exact chains_of_allChains_append hboth
  · intro chain other
    exact Chain.map_text_inj.symm

/-- The chains `a(` and `a;` differ in the mark, and an empty chain stands in either survey. -/
theorem keeps_first_occurrences_marks :
    exists s later both again : Survey,
      s.allChains = [[⟨"a(".toList⟩], [], [⟨"a;".toList⟩], [⟨"a(".toList⟩]] ∧
        later.allChains = [[⟨"b;".toList⟩], [], [⟨"a;".toList⟩]] ∧
        both.allChains = s.allChains ++ later.allChains ∧
        both.chains = [[⟨"a(".toList⟩], [⟨"a;".toList⟩], [⟨"b;".toList⟩]] ∧
        again.allChains = both.chains ∧ again.chains = both.chains := by
  rcases keeps_first_occurrences with ⟨_, hsurvey, hall, _⟩
  rcases hall [[⟨"a(".toList⟩], [], [⟨"a;".toList⟩], [⟨"a(".toList⟩]] with ⟨s, hs⟩
  rcases hall [[⟨"b;".toList⟩], [], [⟨"a;".toList⟩]] with ⟨later, hlater⟩
  rcases hall (s.allChains ++ later.allChains) with ⟨both, hboth⟩
  rcases hall both.chains with ⟨again, hagain⟩
  have hkept : both.chains = [[⟨"a(".toList⟩], [⟨"a;".toList⟩], [⟨"b;".toList⟩]] := by
    rw [(hsurvey s).2.2 later both hboth, (hsurvey s).1.eq_firsts,
      (hsurvey later).1.eq_firsts, hs, hlater]
    decide
  exact ⟨s, later, both, again, hs, hlater, hboth, hkept, hagain,
    (hsurvey both).2.1 again hagain⟩

end Survey

end CallChains
