import ModuleAudit.Grade

/-!
# Policies

What an auditor keeps of the findings of its rules, and which rules it bothers to run.

## Main definitions

* `Policy`: the thresholds, the limit and the two switches.
* `Policy.standard`, `Policy.minimal`, `Policy.strict`: the presets.
* `Policy.accepts`: whether a finding passes both thresholds.
-/

namespace ModuleAudit

/-- What is kept: findings from the two grades on, and no more than `limit` of them altogether. With
`parallel` the checks of one rule on the types of a module are made at the same time, and their findings
are recorded as they come. -/
structure Policy where
  minSeverity : Severity
  minConfidence : Confidence
  limit : Option Nat
  parallel : Bool
  skipInactive : Bool
deriving DecidableEq, Repr

namespace Policy

/-- Everything is kept, and rules that are inactive for a module are skipped. -/
def standard : Policy := ⟨.audit, .low, none, true, true⟩

def minimal : Policy := { standard with minSeverity := .medium, minConfidence := .high }

/-- Everything is kept, and every rule is run on every module, one check at a time. -/
def strict : Policy := { standard with parallel := false, skipInactive := false }

def accepts (p : Policy) (severity : Severity) (confidence : Confidence) : Bool :=
  decide (p.minSeverity ≤ severity) && decide (p.minConfidence ≤ confidence)

end Policy

end ModuleAudit
