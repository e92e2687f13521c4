import CallChains.Proofs.Chain.Places
import CallChains.Proofs.Report.Summary

/-!
# The names in a document

Whatever the identifier is, only tokens behind the first one of a part get into the document.
Such a token stands in the text between two marks, so its name is all that is written there
from one mark to the next; a name with any other character than letters and digits does not
get in, not even in part.

Main statement: the names in a document are the whole of what stands between two marks of the
text, and they are written in the document as they stand.
-/

namespace CallChains

namespace Text

/-- The name stands in the text between two marks. -/
def Delimits (text name : Text) : Prop :=
  exists (before after : Text) (first last : Char), first ∈ Token.marks ∧
    last ∈ Token.marks ∧ text = before ++ first :: (name ++ last :: after)

theorem delimits_append {text name : Text} (h : text.Delimits name) (before after : Text) :
    Delimits (before ++ (text ++ after)) name := by
  rcases h with ⟨front, back, first, last, hfirst, hlast, rfl⟩
  exact ⟨before ++ front, back ++ after, first, last, hfirst, hlast, by simp⟩

def pieces (text : Text) : List Text := text.splitOnP Token.marks.contains

theorem mem_pieces_of_delimits {text name : Text} (h : text.Delimits name)
    (hname : forall c, c ∈ name -> c ∉ Token.marks) : name ∈ text.pieces := by
  rcases h with ⟨before, after, first, last, hfirst, hlast, rfl⟩
  have hfree : forall c, c ∈ name -> Token.marks.contains c = false := by
    intro c hc
    simpa using hname c hc
  rw [pieces, List.splitOnP_append_cons _ _ (by simpa using hfirst),
    List.splitOnP_append_cons _ _ (by simpa using hlast), List.splitOnP_eq_singleton hfree]
  simp

end Text

namespace Json

theorem escaped_of_isAlphanum {c : Char} (h : c.isAlphanum = true) : escaped c = [c] := by
  have hne : forall d : Char, ¬ d.isAlphanum = true -> c ≠ d := by
    rintro d hd rfl
    exact hd h
  have hcontrol : ¬ c.toNat < 0x20 := by
    have hbound := (toNat_of_isAlphanum h).1
    omega
  unfold escaped
  rw [if_neg (hne '"' (by decide)), if_neg (hne '\\' (by decide)), if_neg (hne '\x08' (by decide)),
    if_neg (hne '\x0c' (by decide)), if_neg (hne '\n' (by decide)), if_neg (hne '\r' (by decide)),
    if_neg (hne '\t' (by decide)), if_neg hcontrol]

theorem quoted_of_isAlphanum {name : Text} (h : forall c, c ∈ name -> c.isAlphanum = true) :
    quoted name = '"' :: (name ++ ['"']) := by
  have hsame : name.flatMap escaped = name := by
    induction name with
    | nil => rfl
    | cons c name ih =>
        rw [List.forall_mem_cons] at h
        rw [List.flatMap_cons, escaped_of_isAlphanum h.1, ih h.2]
        rfl
  rw [quoted, hsame]

end Json

namespace Pattern

theorem delimits_of_mem_chains {p : Pattern} {text : Text} {chain : Chain}
    (hchain : chain ∈ p.chains text) {name : Text} (hname : name ∈ chain.calls) :
    isIdentifier name = true ∧ text.Delimits name := by
  rcases mem_chains_iff.mp hchain with ⟨raw, hraw, hpart⟩
  rcases List.mem_map.mp hraw with ⟨m, hm, rfl⟩
  rcases List.mem_map.mp hname with ⟨t, ht, rfl⟩
  rcases RawMatch.exists_around (RawMatch.finds_findAll p text) hm with
    ⟨before, after, htext, _, _, _⟩
  rcases Chain.exists_marks_around hpart ht with ⟨hidentifier, hdelimits⟩
  refine ⟨hidentifier, ?_⟩
  rw [htext]
  exact Text.delimits_append hdelimits before after

end Pattern

namespace Report

theorem exists_pattern_of_ofText {settings : Settings} {text : Text} {report : Report}
    (h : ofText settings text = .ok report) :
    exists p : Pattern, Pattern.ofIdentifier? settings.identifier = some p := by
  cases hpattern : Pattern.ofIdentifier? settings.identifier with
  | some p => exact ⟨p, rfl⟩
  | none =>
      rw [ofText, Settings.survey, hpattern] at h
      cases h

theorem mined_names_delimited {settings : Settings} {text : Text} {report : Report}
    (h : ofText settings text = .ok report) {path : List Text}
    (hpath : report.document.trie.Holds path) {name : Text} (hname : name ∈ path) :
    (name ≠ [] ∧ forall c, c ∈ name -> c.isAlphanum = true) ∧
      (exists (before after : Text) (first last : Char), first ∈ Token.marks ∧
        last ∈ Token.marks ∧ text = before ++ first :: (name ++ last :: after)) ∧
      name ∈ text.pieces ∧ Json.quoted name = '"' :: (name ++ ['"']) := by
  rcases exists_pattern_of_ofText h with ⟨p, hp⟩
  rcases summarizes_of_ofText hp h with ⟨hne, hsums⟩
  rcases (hsums.holds_iff_exists_chain hne).mp hpath with ⟨chain, hchain, htaken⟩
  rcases Pattern.delimits_of_mem_chains hchain (htaken.subset hname) with
    ⟨hidentifier, hdelimits⟩
  have hall := isIdentifier_iff.mp hidentifier
  refine ⟨hall, hdelimits, Text.mem_pieces_of_delimits hdelimits ?_,
    Json.quoted_of_isAlphanum hall.2⟩
  intro c hc hmark
  exact Token.not_isAlphanum_of_mem_marks hmark (hall.2 c hc)

/-- For an identifier that is no single name the document has the part of it behind a dot, but
no part of a method with an underscore. -/
theorem mined_names_delimited_dotted :
    exists report : Report,
      ofText (Settings.unchecked "my.Lib".toList) "my.Lib.open_all;".toList = .ok report ∧
        report.document.trie.Holds ["Lib".toList] ∧
        "Lib".toList ∈ Text.pieces "my.Lib.open_all;".toList ∧
        Json.quoted "Lib".toList = "\"Lib\"".toList := by
  have hp : Pattern.ofIdentifier? (Settings.unchecked "my.Lib".toList).identifier =
      some ⟨"my.Lib".toList, by decide⟩ := rfl
  have hchain : [⟨"my.".toList⟩, ⟨"Lib.".toList⟩] ∈
      Pattern.chains ⟨"my.Lib".toList, by decide⟩ "my.Lib.open_all;".toList := by
    decide +kernel
  have hfound : Pattern.raws ⟨"my.Lib".toList, by decide⟩ "my.Lib.open_all;".toList ≠ [] := by
    decide
  rcases exists_ofText_of_ne_nil hp hfound with ⟨report, hreport, hsums⟩
  have hmined : report.document.trie.Holds ["Lib".toList] :=
    (hsums.holds _).mpr (Or.inr ⟨_, hchain, by decide⟩)
  rcases mined_names_delimited hreport hmined List.mem_cons_self with ⟨_, _, hpiece, hquoted⟩
  exact ⟨report, hreport, hmined, hpiece, hquoted⟩

end Report

end CallChains
