import ModuleAudit.Grade
import ModuleAudit.Text.Dictionary
import ModuleAudit.TypeDef

/-!
# Defects

What a rule has to say about a type: which rule, which type, how bad, how sure, and what is wrong.

## Main definitions

* `Defect`: the finding.
* `Defect.ofType`: the finding of a rule about a type.
* `Defect.text`: the line that a summary shows for a finding.
* `Defect.sortKey`: what the findings of a summary are ordered by.
-/

namespace ModuleAudit

/-- A finding of a rule about a type, which is given by its token and its full name. -/
structure Defect where
  rule : String
  token : Token
  target : String
  severity : Severity
  confidence : Confidence
  problem : String
deriving DecidableEq, Repr

namespace Defect

def ofType (rule problem : String) (t : TypeDef) (severity : Severity) (confidence : Confidence) :
    Defect :=
  ⟨rule, t.token, t.fullName, severity, confidence, problem⟩

def text (d : Defect) : String :=
  s!"[{d.severity.text}/{d.confidence.text}] {d.rule}: {d.target} ({d.token.text}) - {d.problem}"

/-- Findings are ordered by the token of the type and then by the rule's name, which is compared byte
by byte: the key is the token's number followed by the bytes of the name. -/
def sortKey (d : Defect) : List Nat :=
  d.token.value.toNat :: Dictionary.bytes d.rule

end Defect

end ModuleAudit
