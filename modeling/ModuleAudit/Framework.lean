/-!
# Target frameworks

The framework generations that a module can be compiled against, oldest first.

## Main definitions

* `Framework`: the generations, ordered by age.
* `Framework.supportsStaticClasses`: whether a class can be declared static there.
* `Framework.ofVersionNumber?`: the generation of a major and a minor version number.
-/

namespace ModuleAudit

/-- A framework generation. -/
inductive Framework where
  | v1_0
  | v1_1
  | v2_0
  | v4_0
deriving DecidableEq, Inhabited, Repr

namespace Framework

def all : List Framework := [v1_0, v1_1, v2_0, v4_0]

def rank : Framework → Nat
  | v1_0 => 0
  | v1_1 => 1
  | v2_0 => 2
  | v4_0 => 3

instance : LE Framework := ⟨fun a b => a.rank ≤ b.rank⟩

instance (a b : Framework) : Decidable (a ≤ b) := inferInstanceAs (Decidable (a.rank ≤ b.rank))

def text : Framework → String
  | v1_0 => "v1.0"
  | v1_1 => "v1.1"
  | v2_0 => "v2.0"
  | v4_0 => "v4.0"

/-- Static classes exist since the second generation. -/
def supportsStaticClasses (f : Framework) : Bool := decide (v2_0 ≤ f)

/-- The generation of a version number. From the second major version on the minor number does not
matter, and the third one never named a framework of its own. -/
def ofVersionNumber? : Nat → Nat → Option Framework
  | 1, 0 => some v1_0
  | 1, 1 => some v1_1
  | 2, _ => some v2_0
  | 4, _ => some v4_0
  | _, _ => none

theorem rank_injective {a b : Framework} (h : a.rank = b.rank) : a = b := by
  cases a <;> cases b <;> first | rfl | cases h

end Framework

end ModuleAudit
