import ModuleAudit.Classification
import ModuleAudit.Nesting
import ModuleAudit.Rule

/-!
# Classes that could be declared static

A class whose members are all static, and whose bases add no instance member, has no use for
instances. It should be declared static, where the framework knows static classes.

## Main definitions

* `StaticCandidate`: the state of the rule.
* `StaticCandidate.concerns`: the types that the rule has something to say about.
* `StaticCandidate.check`: the check of one type.
-/

namespace ModuleAudit

/-- The rule that finds classes which could be declared static. It is off until a module starts. -/
structure StaticCandidate where
  active : Bool
deriving DecidableEq, Repr

namespace StaticCandidate

def name : String := "ConsiderUsingStaticTypeRule"

def problem : String :=
  "This type only contains static fields and methods and should be declared static."

def solution : String :=
  "Declare the type as a static class to state its purpose and get compiler errors for instance " ++
    "members."

def initial : StaticCandidate := ⟨false⟩

def start (framework : Framework) : StaticCandidate := ⟨framework.supportsStaticClasses⟩

/-- Whether the type is a class that somebody wrote. -/
def concerns (w : World) (m : Module) (t : TypeDef) : Bool :=
  !(t.isEnum || t.isInterface || t.isValueType || t.isDelegate ||
    w.isGenerated m.registry t)

/-- The check of one type of a module: a class that could be declared static and is not is reported.
Classes that cannot be classified are left alone. -/
def check (rule : StaticCandidate) (w : World) (m : Module) (t : TypeDef) : Check CheckResult :=
  if !rule.active || !concerns w m t then .done .doesNotApply
  else if t.isDeclaredStatic then .done .success
  else
    match w.classify m.registry t with
    | .allStatic => .report t .medium .high fun _ => .currentResult
    | _ => .currentResult

end StaticCandidate

instance : Rule StaticCandidate where
  name _ := StaticCandidate.name
  problem _ := StaticCandidate.problem
  solution _ := StaticCandidate.solution
  isActive := StaticCandidate.active
  start framework _ := StaticCandidate.start framework
  check := StaticCandidate.check

end ModuleAudit
