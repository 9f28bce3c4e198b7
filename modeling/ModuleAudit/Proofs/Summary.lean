import ModuleAudit.Proofs.Sorting

/-!
# What a summary says

A summary counts the defects of a log and shows each of them on a line of its own: type by type in the
order of the tokens, the defects of a type rule by rule in the order of the bytes of the names, and
those of one type and rule as they were recorded. There is one such list of a log only, so a summary
depends on nothing else than what was recorded for each type and rule, and in which order.

## Main definitions

* `Defect.Before`: the order of the lines, said of tokens and names.
* `Defect.about`: the defects of a list that are about one type and come of one rule.
* `DefectLog.Lists`: the lists of defects that are those of a log in the order of a summary.

## Main statements

* `DefectLog.lists_iff`: a log is listed in one way only.
* `DefectLog.summary_eq_join`: the text of a summary.
* `DefectLog.summary_of_lists`: what a summary shows, and what it does not depend on.
-/

namespace ModuleAudit

namespace Defect

variable {d e : Defect} {l l' : List Defect}

/-- The line that a summary shows for a defect. -/
def line (d : Defect) : String := "  " ++ d.text ++ "\n"

/-- A defect may stand before another one: its type has the smaller token, or it is about the same type
and its rule has not the greater name, byte by byte. -/
def Before (d e : Defect) : Prop := d.token < e.token ∨ d.token = e.token ∧
  (List.Lex (· < ·) (Dictionary.bytes d.rule) (Dictionary.bytes e.rule) ∨ d.rule = e.rule)

/-- The defects of a list that are about one type and come of one rule. -/
def about (token : Token) (rule : String) (l : List Defect) : List Defect :=
  l.filter fun d => d.token == token && d.rule == rule

theorem le_iff_before : le d e = true ↔ d.Before e := by
  show Dictionary.le (d.token.value.toNat :: _) (e.token.value.toNat :: _) = true ↔ _
  rw [Dictionary.le_cons_iff, Dictionary.le_iff_lex, Dictionary.bytes_inj, Token.toNat_value_inj]
  rfl

theorem sortKey_eq_iff {token : Token} {rule : String} :
    d.sortKey = token.value.toNat :: Dictionary.bytes rule ↔ d.token = token ∧ d.rule = rule := by
  rw [sortKey, List.cons_eq_cons, Token.toNat_value_inj, Dictionary.bytes_inj]

theorem about_eq_filter_sortKey (token : Token) (rule : String) (l : List Defect) :
    about token rule l =
      l.filter (·.sortKey == token.value.toNat :: Dictionary.bytes rule) := by
  refine List.filter_congr fun d _ => ?_
  rw [Bool.eq_iff_iff, Bool.and_eq_true, beq_iff_eq, beq_iff_eq, beq_iff_eq, sortKey_eq_iff]

/-- Only the types and rules that occur in a list have to be looked at. -/
theorem filter_sortKey_eq_of_about (hperm : l'.Perm l)
    (h : ∀ d ∈ l, about d.token d.rule l' = about d.token d.rule l) (key : List Nat) :
    l'.filter (·.sortKey == key) = l.filter (·.sortKey == key) := by
  by_cases hkey : ∃ d ∈ l, d.sortKey = key
  · obtain ⟨d, hd, rfl⟩ := hkey
    rw [sortKey, ← about_eq_filter_sortKey, ← about_eq_filter_sortKey]
    exact h d hd
  · have hnone : ∀ d ∈ l, ¬(d.sortKey == key) = true :=
      fun d hd heq => hkey ⟨d, hd, beq_iff_eq.mp heq⟩
    rw [List.filter_eq_nil_iff.mpr hnone,
      List.filter_eq_nil_iff.mpr fun d hd => hnone d (hperm.mem_iff.mp hd)]

end Defect

namespace DefectLog

variable {log : DefectLog} {l : List Defect}

/-- A list shows the defects of a log in the order of a summary: all of them, by type and rule, and
those of one type and rule as they were recorded. -/
structure Lists (log : DefectLog) (l : List Defect) : Prop where
  perm : l.Perm log.toList
  ordered : l.Pairwise Defect.Before
  recorded : ∀ token rule, Defect.about token rule l = Defect.about token rule log.toList

theorem lists_sorted (log : DefectLog) : log.Lists log.sorted where
  perm := log.sorted_perm
  ordered := log.ordered_sorted.imp Defect.le_iff_before.mp
  recorded token rule := by
    rw [Defect.about_eq_filter_sortKey, Defect.about_eq_filter_sortKey, filter_sorted]

/-- A log is listed in one way only. -/
theorem lists_iff : log.Lists l ↔ l = log.sorted := by
  constructor
  · intro h
    have hordered : Defect.Ordered l := h.ordered.imp Defect.le_iff_before.mpr
    refine log.ordered_sorted.eq_of_filter_sortKey_eq hordered fun key => ?_
    rw [filter_sorted]
    exact Defect.filter_sortKey_eq_of_about h.perm (fun d _ => h.recorded d.token d.rule) key
  · rintro rfl
    exact log.lists_sorted

theorem foldl_line (out : String) (l : List Defect) :
    l.foldl (fun out d => out ++ "  " ++ d.text ++ "\n") out =
      out ++ String.join (l.map Defect.line) := by
  induction l generalizing out with
  | nil => rw [List.map_nil, String.join_nil, String.append_empty, List.foldl_nil]
  | cons d rest ih =>
    rw [List.foldl_cons, ih, List.map_cons, String.join_cons, Defect.line]
    simp only [String.append_assoc]

theorem summary_eq_join (log : DefectLog) :
    log.summary = String.join (s!"Defects: {log.count}\n" :: log.sorted.map Defect.line) := by
  rw [String.join_cons, summary, foldl_line]

/-- A summary shows how many defects a log holds, and then each of them on a line: all that were
recorded, by token and by the bytes of the rule's name, and in the order of recording where both are the
same. No other list is like that. So logs that hold the same defects, those of each type and rule in the
same order, have one and the same summary. -/
theorem summary_of_lists (log log' : DefectLog) :
    (∃ entries, log.Lists entries ∧ (∀ other, log.Lists other → other = entries) ∧
      log.summary = String.join (s!"Defects: {log.count}\n" :: entries.map Defect.line)) ∧
    (log'.toList.Perm log.toList →
      (∀ d ∈ log.toList, Defect.about d.token d.rule log'.toList =
        Defect.about d.token d.rule log.toList) →
      log'.summary = log.summary) := by
  constructor
  · exact ⟨log.sorted, log.lists_sorted, fun other => lists_iff.mp, log.summary_eq_join⟩
  · intro hperm habout
    exact summary_congr (Defect.filter_sortKey_eq_of_about hperm habout)

def recording (l : List Defect) : DefectLog := l.foldl push empty

def remark (rule : String) (row : Nat) (severity : Severity) : Defect :=
  ⟨rule, .typeDef row, "Acme.Tool", severity, .high, "Too long."⟩

/-- Two rules on two types in turns; one of them has two things to say about the second type. -/
def inTurns : DefectLog := recording
  [remark "é" 2 .low, remark "Z" 2 .high, remark "Z" 1 .critical, remark "Z" 2 .low, remark "é" 1 .low]

/-- The same defects, one rule after the other. -/
def ruleByRule : DefectLog := recording
  [remark "Z" 2 .high, remark "Z" 1 .critical, remark "Z" 2 .low, remark "é" 2 .low, remark "é" 1 .low]

theorem summary_of_lists_inTurns :
    ruleByRule.toList.Perm inTurns.toList ∧
    (∀ d ∈ inTurns.toList, Defect.about d.token d.rule ruleByRule.toList =
      Defect.about d.token d.rule inTurns.toList) ∧
    ruleByRule.toList ≠ inTurns.toList ∧ ruleByRule.summary = inTurns.summary ∧
    inTurns.summary = String.join ("Defects: 5\n" :: [remark "Z" 1 .critical, remark "é" 1 .low,
      remark "Z" 2 .high, remark "Z" 2 .low, remark "é" 2 .low].map Defect.line) := by
  have hperm : ruleByRule.toList.Perm inTurns.toList := by decide
  have habout : ∀ d ∈ inTurns.toList, Defect.about d.token d.rule ruleByRule.toList =
      Defect.about d.token d.rule inTurns.toList := by decide
  obtain ⟨⟨entries, -, hunique, htext⟩, hsame⟩ := summary_of_lists inTurns ruleByRule
  refine ⟨hperm, habout, by decide, hsame hperm habout, ?_⟩
  have hlists : inTurns.Lists [remark "Z" 1 .critical, remark "é" 1 .low, remark "Z" 2 .high,
      remark "Z" 2 .low, remark "é" 2 .low] := by
    have hordered : Defect.Ordered [remark "Z" 1 .critical, remark "é" 1 .low, remark "Z" 2 .high,
        remark "Z" 2 .low, remark "é" 2 .low] := by
      unfold Defect.Ordered
      decide +kernel
    refine ⟨by decide, hordered.imp Defect.le_iff_before.mp, fun token rule => ?_⟩
    rw [Defect.about_eq_filter_sortKey, Defect.about_eq_filter_sortKey]
    exact Defect.filter_sortKey_eq_of_about (by decide) (by decide) _
  rw [htext, ← hunique _ hlists]
  rfl

end DefectLog

end ModuleAudit
