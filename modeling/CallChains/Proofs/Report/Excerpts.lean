import CallChains.Proofs.Report.Lines

/-!
# Excerpts

An excerpt keeps of a text what is mined in it: every raw match becomes a line, and whatever
stands around the matches is gone.  A raw match on its own is a raw match again, since nothing
in front of it began it and nothing behind it ended it.  A report looks at the raw matches only,
so the excerpt has the report of the text.

Main statement: a text and its excerpt have the same raw matches and the same report, and so
have any two texts with the same raw matches.
-/

namespace CallChains

namespace Pattern

open RawMatch

def excerpt (p : Pattern) (text : Text) : Text := Text.join ['\n'] (p.raws text)

theorem isStatement_of_mem_raws {p : Pattern} {text raw : Text} (h : raw ∈ p.raws text) :
    IsStatement p.lead raw := by
  rcases List.mem_map.mp h with ⟨m, hm, rfl⟩
  rcases exists_around (finds_findAll p text) hm with ⟨_, _, _, _, hraw, _⟩
  exact hraw

theorem raws_of_isStatement {p : Pattern} {raw : Text} (h : IsStatement p.lead raw) :
    p.raws raw = [raw] := by
  have hfound : p.findAll raw = [⟨0, raw⟩] := finds_iff.mp (finds_statement h 0)
  rw [raws, hfound]
  rfl

theorem raws_excerpt {p : Pattern} (h : '\n' ∉ p.lead) (text : Text) :
    p.raws (p.excerpt text) = p.raws text := by
  have hself : forall raw, raw ∈ p.raws text -> p.raws raw = [raw] := by
    intro raw hraw
    exact raws_of_isStatement (isStatement_of_mem_raws hraw)
  rw [excerpt, raws_join h, List.flatMap_congr hself, List.flatMap_singleton']

end Pattern

namespace Survey

theorem report?_ofText_congr {p : Pattern} {text other : Text} (h : p.raws text = p.raws other)
    (output : Text) : (ofText p text).report? output = (ofText p other).report? output := by
  have hstages : (ofText p text).stages = (ofText p other).stages :=
    congrArg (fun raws => (FirstSeen.distinct raws).map (Stage.ofRaw p.token)) h
  have hcount : (ofText p text).found.length = (ofText p other).found.length := by
    have hlength := congrArg List.length h
    rwa [Pattern.raws, Pattern.raws, List.length_map, List.length_map] at hlength
  have hempty : (ofText p text).found.isEmpty = (ofText p other).found.isEmpty := by
    rw [Bool.eq_iff_iff, List.isEmpty_iff_length_eq_zero, List.isEmpty_iff_length_eq_zero, hcount]
  have hchains : (ofText p text).chains = (ofText p other).chains := by
    rw [chains, chains, chainLists, chainLists, hstages]
  rw [report?, report?, hempty, hcount, hstages, hchains]
  rfl

end Survey

namespace Report

theorem ofText_congr {settings : Settings} {p : Pattern}
    (h : Pattern.ofIdentifier? settings.identifier = some p) {text other : Text}
    (hraws : p.raws text = p.raws other) : ofText settings text = ofText settings other := by
  rw [ofText_eq h, ofText_eq h, Survey.report?_ofText_congr hraws]

theorem ofText_excerpt {settings : Settings} {p : Pattern} (h : settings.SearchesFor p)
    {text : Text} (hfound : p.raws text ≠ []) :
    p.raws (p.excerpt text) = p.raws text ∧
      (exists report : Report,
        ofText settings text = .ok report ∧ ofText settings (p.excerpt text) = .ok report) ∧
      forall other : Text, p.raws other = p.raws text ->
        ofText settings other = ofText settings text := by
  have hraws := Pattern.raws_excerpt (Pattern.newline_notMem_lead h.isIdentifier) text
  refine ⟨hraws, ?_, ?_⟩
  · rcases exists_ofText_of_ne_nil h.fits hfound with ⟨report, hreport, _⟩
    exact ⟨report, hreport, by rw [ofText_congr h.fits hraws, hreport]⟩
  · intro other hother
    exact ofText_congr h.fits hother

/-- The identifier overlaps itself in front of the first match and comes in again inside it. -/
theorem ofText_excerpt_overlapping :
    (Settings.unchecked "aa".toList).SearchesFor ⟨"aa".toList, by decide⟩ ∧
      Pattern.raws ⟨"aa".toList, by decide⟩ "xaaa.b(); aa.c;) \r\nno;\naa.d();junk".toList =
        ["aa.b(); aa.c;".toList, "aa.d();".toList] ∧
      exists report : Report,
        ofText (Settings.unchecked "aa".toList) "xaaa.b(); aa.c;) \r\nno;\naa.d();junk".toList =
            .ok report ∧
          ofText (Settings.unchecked "aa".toList) "aa.b(); aa.c;\naa.d();".toList = .ok report := by
  have h : (Settings.unchecked "aa".toList).SearchesFor ⟨"aa".toList, by decide⟩ :=
    Settings.searchesFor_unchecked ⟨"aa".toList, by decide⟩ (by decide)
  have hraws :
      Pattern.raws ⟨"aa".toList, by decide⟩ "xaaa.b(); aa.c;) \r\nno;\naa.d();junk".toList =
        ["aa.b(); aa.c;".toList, "aa.d();".toList] := by
    decide
  have hexcerpt :
      Pattern.excerpt ⟨"aa".toList, by decide⟩ "xaaa.b(); aa.c;) \r\nno;\naa.d();junk".toList =
        "aa.b(); aa.c;\naa.d();".toList := by
    rw [Pattern.excerpt, hraws]
    decide
  rcases ofText_excerpt h (by rw [hraws]; exact List.cons_ne_nil _ _) with ⟨_, hreport, _⟩
  rw [hexcerpt] at hreport
  exact ⟨h, hraws, hreport⟩

end Report

end CallChains
