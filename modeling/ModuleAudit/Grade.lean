/-!
# Grades of a finding

A finding is graded twice: by how much harm it does, and by how sure the rule is of it. Both scales
are linear orders, lowest grade first.

## Main definitions

* `Severity`, `Confidence`: the two scales.
-/

namespace ModuleAudit

/-- How much harm a finding does. -/
inductive Severity where
  | audit
  | low
  | medium
  | high
  | critical
deriving DecidableEq, Inhabited, Repr

namespace Severity

def all : List Severity := [audit, low, medium, high, critical]

def rank : Severity → Nat
  | audit => 0
  | low => 1
  | medium => 2
  | high => 3
  | critical => 4

instance : LE Severity := ⟨fun a b => a.rank ≤ b.rank⟩

instance (a b : Severity) : Decidable (a ≤ b) := inferInstanceAs (Decidable (a.rank ≤ b.rank))

theorem le_trans {a b c : Severity} (hab : a ≤ b) (hbc : b ≤ c) : a ≤ c := Nat.le_trans hab hbc

def text : Severity → String
  | audit => "Audit"
  | low => "Low"
  | medium => "Medium"
  | high => "High"
  | critical => "Critical"

end Severity

/-- How sure a rule is of a finding. -/
inductive Confidence where
  | low
  | normal
  | high
  | total
deriving DecidableEq, Inhabited, Repr

namespace Confidence

def all : List Confidence := [low, normal, high, total]

def rank : Confidence → Nat
  | low => 0
  | normal => 1
  | high => 2
  | total => 3

instance : LE Confidence := ⟨fun a b => a.rank ≤ b.rank⟩

instance (a b : Confidence) : Decidable (a ≤ b) := inferInstanceAs (Decidable (a.rank ≤ b.rank))

theorem le_trans {a b c : Confidence} (hab : a ≤ b) (hbc : b ≤ c) : a ≤ c := Nat.le_trans hab hbc

def text : Confidence → String
  | low => "Low"
  | normal => "Normal"
  | high => "High"
  | total => "Total"

end Confidence

end ModuleAudit
