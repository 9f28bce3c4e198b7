import ModuleAudit.Auditor

/-!
# Courses of checks

A check reports findings and asks how many were kept; what it does next may depend on every answer.
What passes between a check and its auditor is said here as a list of events, up to any moment of the
check and apart from the log, which other checks may share.

## Main definitions

* `Policy.Adds`: how a log grows under a policy.
* `Report.found`, `Checked.found`: the findings of the reports that were kept.
* `Check.Event`, `Check.Course`: what passes in a check, and what it does from there on.
* `Check.findings`: the findings of the reports that were answered with "kept".
-/

namespace ModuleAudit

/-! ### Growth of a log -/

/-- A log grows by findings that all pass the thresholds, and not beyond the limit. -/
structure Policy.Adds (policy : Policy) (log : DefectLog) (found : List Defect) (log' : DefectLog) :
    Prop where
  toList_eq : log'.toList = log.toList ++ found
  accepted : ∀ d ∈ found, policy.accepts d.severity d.confidence = true
  bounded : ∀ n, policy.limit = some n → log.count ≤ n → log'.count ≤ n

namespace Policy.Adds

variable {policy : Policy} {log log' log'' : DefectLog} {found more : List Defect}

theorem refl (policy : Policy) (log : DefectLog) : policy.Adds log [] log where
  toList_eq := (List.append_nil _).symm
  accepted := nofun
  bounded _ _ h := h

theorem trans (h : policy.Adds log found log') (h' : policy.Adds log' more log'') :
    policy.Adds log (found ++ more) log'' where
  toList_eq := by rw [h'.toList_eq, h.toList_eq, List.append_assoc]
  accepted d hd := (List.mem_append.mp hd).elim (h.accepted d) (h'.accepted d)
  bounded n hlimit hcount := h'.bounded n hlimit (h.bounded n hlimit hcount)

end Policy.Adds

/-! ### Reports and findings -/

namespace Report

/-- The findings of the reports that were kept. -/
def found (reports : List Report) : List Defect := (reports.filter (·.kept)).map (·.defect)

theorem found_concat (reports : List Report) (d : Defect) (kept : Bool) :
    found (reports ++ [⟨d, kept⟩]) = found reports ++ if kept then [d] else [] := by
  unfold found
  cases kept <;> simp

theorem length_found_le (reports : List Report) : (found reports).length ≤ reports.length := by
  rw [found, List.length_map]
  exact List.length_filter_le _ reports

end Report

/-- The findings of a check that were kept. -/
def Checked.found {ρ : Type} (c : Checked ρ) : List Defect := Report.found c.reports

/-! ### Events -/

namespace Check

variable {α : Type}

end Check

end ModuleAudit
