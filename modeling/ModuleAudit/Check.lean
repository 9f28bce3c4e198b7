import ModuleAudit.DefectLog
import ModuleAudit.Policy

/-!
# Checks

A check is what a rule does with one type: it may report findings, one after the other, and learns of
each whether it was kept; it may ask how many of its findings were kept so far; and it ends with a
result. What it does next may depend on all that it learns.

## Main definitions

* `Check`: the course of a check, as a tree of reports and questions.
* `CheckResult`: what a check says about its type.
* `Check.currentResult`: failure as soon as a finding was kept, success before.
* `Progress`: the log during a check, the count of its findings kept, and its reports so far.
* `Check.run`: the course of a check under a policy.

## Main statements

* `Progress.take_eq`: a finding is kept exactly if it passes the thresholds and the limit leaves room.

## Design notes

A check cannot touch the log other than by reporting, and it cannot report in another rule's name:
rule and problem are put in when the check is run.
-/

namespace ModuleAudit

inductive CheckResult where
  | doesNotApply
  | success
  | failure
deriving DecidableEq, Repr

/-- The course of a check that ends with a value of type `α`. -/
inductive Check (α : Type) where
  | done (value : α)
  /-- A finding about a type is reported; the check goes on knowing whether it was kept. -/
  | report (target : TypeDef) (severity : Severity) (confidence : Confidence)
      (next : Bool → Check α)
  /-- The check goes on knowing how many of its findings were kept. -/
  | askKept (next : Nat → Check α)

namespace Check

variable {α β : Type}

def bind : Check α → (α → Check β) → Check β
  | done value, f => f value
  | report target severity confidence next, f =>
    report target severity confidence fun kept => (next kept).bind f
  | askKept next, f => askKept fun count => (next count).bind f

instance : Monad Check where
  pure := done
  bind := bind

/-- The result that goes with the number of findings kept: failure as soon as there is one. -/
def resultOf (kept : Nat) : CheckResult := if 0 < kept then .failure else .success

def currentResult : Check CheckResult := askKept fun kept => done (resultOf kept)

end Check

structure Report where
  defect : Defect
  kept : Bool
deriving DecidableEq, Repr

/-- How far a check has come: the log as it is now, how many findings of this check were kept, and the
reports of this check, first one first. -/
structure Progress where
  log : DefectLog
  kept : Nat
  reports : List Report

namespace Progress

/-- A check that has not reported anything yet. -/
def start (log : DefectLog) : Progress := ⟨log, 0, []⟩

@[simp] theorem log_start (log : DefectLog) : (start log).log = log := rfl

@[simp] theorem kept_start (log : DefectLog) : (start log).kept = 0 := rfl

/-- Takes a report: a finding that passes the thresholds is recorded if the limit leaves room. -/
def take (policy : Policy) (d : Defect) (p : Progress) : Bool × Progress :=
  if policy.accepts d.severity d.confidence then
    match p.log.tryPush d policy.limit with
    | (true, log) => (true, ⟨log, p.kept + 1, p.reports ++ [⟨d, true⟩]⟩)
    | (false, log) => (false, ⟨log, p.kept, p.reports ++ [⟨d, false⟩]⟩)
  else (false, { p with reports := p.reports ++ [⟨d, false⟩] })

theorem take_eq (policy : Policy) (d : Defect) (p : Progress) : p.take policy d =
    if policy.accepts d.severity d.confidence = true ∧ p.log.hasRoom policy.limit = true then
      (true, ⟨p.log.push d, p.kept + 1, p.reports ++ [⟨d, true⟩]⟩)
    else (false, { p with reports := p.reports ++ [⟨d, false⟩] }) := by
  unfold take DefectLog.tryPush
  by_cases haccepts : policy.accepts d.severity d.confidence = true <;>
    by_cases hroom : p.log.hasRoom policy.limit = true <;> simp [haccepts, hroom]

end Progress

namespace Check

variable {α : Type}

/-- The course of a check of the rule with the given name and problem: the value that it ends with,
and the log and the reports thereafter. -/
def run (policy : Policy) (rule problem : String) : Check α → Progress → α × Progress
  | done value, p => (value, p)
  | report target severity confidence next, p =>
    let (kept, p) := p.take policy (.ofType rule problem target severity confidence)
    run policy rule problem (next kept) p
  | askKept next, p => run policy rule problem (next p.kept) p

end Check

end ModuleAudit
