import ModuleAudit.Check
import ModuleAudit.Module

/-!
# Rules

A rule looks at one type at a time. It has a name, says what is wrong where it finds something and
what to do about it, and is switched on or off when a module starts.
-/

namespace ModuleAudit

/-- The rules of type `ρ`. The value of a rule is its state, which only the start of a module
changes. -/
class Rule (ρ : Type) where
  name : ρ → String
  problem : ρ → String
  solution : ρ → String
  isActive : ρ → Bool
  /-- The rule once a module for the framework has started. -/
  start : Framework → ρ → ρ
  check : ρ → World → Module → TypeDef → Check CheckResult

end ModuleAudit
