import ModuleAudit.Round

/-!
# Auditors

An auditor runs its rules over modules and keeps what they report in one log, so that one auditor
can go through all modules of an application.

## Main definitions

* `Auditor`: a policy, rules and a log.
* `Checked`: the outcome of one rule on one type.
* `Audited`, `Summary`: the outcome of an audit of one module, check by check and in numbers.
* `Auditor.start`, `Auditor.check`: switching the rules for a module, and a single check.
* `Auditor.checkAll`, `Auditor.checkTogether`: checks one after the other, and at the same time.
* `Auditor.audit`: all checks of a module, rule by rule.
-/

namespace ModuleAudit

/-- The outcome of one rule on one type: the result, and all that the rule reported. -/
structure Checked (ρ : Type) where
  rule : ρ
  type : TypeDef
  result : CheckResult
  reports : List Report

/-- The outcome of an audit of one module, in numbers. -/
structure Summary where
  module : String
  types : Nat
  rules : Nat
  inactiveRules : Nat
  doesNotApply : Nat
  success : Nat
  failure : Nat
  defects : Nat
deriving DecidableEq, Repr

namespace Summary

def empty : Summary := ⟨"", 0, 0, 0, 0, 0, 0, 0⟩

def checks (s : Summary) : Nat := s.doesNotApply + s.success + s.failure

def text (s : Summary) : String :=
  s!"{s.module}: {s.types} type(s), {s.rules} rule(s) ({s.inactiveRules} inactive) - " ++
    s!"{s.failure} failure(s), {s.success} success(es), {s.doesNotApply} not applicable, " ++
    s!"{s.defects} defect(s)"

end Summary

structure Audited (ρ : Type) where
  summary : Summary
  checked : List (Checked ρ)

/-- A policy, the rules in the order in which they were registered, and the log of all their
findings. -/
structure Auditor (ρ : Type) where
  policy : Policy
  rules : List ρ
  log : DefectLog

namespace Auditor

variable {ρ : Type} [Rule ρ]

omit [Rule ρ] in
def new (policy : Policy) (rules : List ρ) : Auditor ρ := ⟨policy, rules, .empty⟩

omit [Rule ρ] in
def addRule (a : Auditor ρ) (rule : ρ) : Auditor ρ := { a with rules := a.rules ++ [rule] }

/-- Switches every rule for a module. -/
def start (a : Auditor ρ) (m : Module) : Auditor ρ :=
  { a with rules := a.rules.map (Rule.start m.framework) }

/-- Checks one type of a module with a rule, which must have been switched for the module. -/
def check (a : Auditor ρ) (rule : ρ) (w : World) (m : Module) (t : TypeDef) :
    Checked ρ × Auditor ρ :=
  let (result, progress) :=
    (Rule.check rule w m t).run a.policy (Rule.name rule) (Rule.problem rule) (.start a.log)
  (⟨rule, t, result, progress.reports⟩, { a with log := progress.log })

def checkAll (a : Auditor ρ) (w : World) (m : Module) :
    List (ρ × TypeDef) → List (Checked ρ) × Auditor ρ
  | [] => ([], a)
  | (rule, t) :: rest =>
    let (checked, a) := a.check rule w m t
    let (others, a) := a.checkAll w m rest
    (checked :: others, a)

/-- Whether a rule is passed over because it is off and the policy skips such rules. -/
def isSkipped (a : Auditor ρ) (rule : ρ) : Bool := !Rule.isActive rule && a.policy.skipInactive

/-- Brings checks of a rule to their ends, one after the other. -/
def finish (a : Auditor ρ) (rule : ρ) : List Lane → List (Checked ρ) × Auditor ρ
  | [] => ([], a)
  | l :: rest =>
    let (result, progress) :=
      l.rest.run a.policy (Rule.name rule) (Rule.problem rule) ⟨a.log, l.kept, l.reports⟩
    let (others, a) := { a with log := progress.log }.finish rule rest
    (⟨rule, l.type, result, progress.reports⟩ :: others, a)

/-- Checks types with a rule, all at the same time: first the turns are taken, and what is left to do
then is done check by check. -/
def checkTogether (a : Auditor ρ) (rule : ρ) (w : World) (m : Module) (types : List TypeDef)
    (turns : List Nat) : List (Checked ρ) × Auditor ρ :=
  let round := ((Round.start rule w m a.log types).after a.policy (Rule.name rule)
    (Rule.problem rule) turns).settled
  { a with log := round.log }.finish rule round.lanes

/-- Checks all types of a module with a rule: in the order of their tokens, or at the same time. -/
def checkTypes (a : Auditor ρ) (rule : ρ) (w : World) (m : Module) (turns : List Nat) :
    List (Checked ρ) × Auditor ρ :=
  if a.policy.parallel then a.checkTogether rule w m (m.types w) turns
  else a.checkAll w m ((m.types w).map (rule, ·))

/-- Checks all types of a module with one rule after the other, each with the turns of its checks. -/
def checkRules (a : Auditor ρ) (w : World) (m : Module) :
    List (ρ × List Nat) → List (Checked ρ) × Auditor ρ
  | [] => ([], a)
  | (rule, turns) :: rest =>
    let (checked, a) := a.checkTypes rule w m turns
    let (others, a) := a.checkRules w m rest
    (checked ++ others, a)

/-- The rules as they were registered, skipped ones left out, each with its turns. -/
def agenda (a : Auditor ρ) (plan : Plan) : List (ρ × List Nat) :=
  (a.rules.zipIdx.filter (!a.isSkipped ·.1)).map fun (rule, i) => (rule, plan i)

/-- Starts a module and makes all its checks: the outcome in numbers, that of each check by rule and
type, and the auditor thereafter. The plan matters only where checks are made at the same time. -/
def audit (a : Auditor ρ) (w : World) (m : Module) (plan : Plan := .inOrder) :
    Audited ρ × Auditor ρ :=
  let a := a.start m
  let (checked, after) := a.checkRules w m (a.agenda plan)
  let results := checked.map (·.result)
  let summary := {
    module := m.name
    types := (m.types w).length
    rules := a.rules.length
    inactiveRules := a.rules.countP a.isSkipped
    doesNotApply := results.count .doesNotApply
    success := results.count .success
    failure := results.count .failure
    defects := after.log.count - a.log.count }
  (⟨summary, checked⟩, after)

end Auditor

end ModuleAudit
