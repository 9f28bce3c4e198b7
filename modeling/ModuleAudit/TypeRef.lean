import ModuleAudit.Token
import ModuleAudit.TypeName

/-!
# References to types

How a type names its base: by token and name, together with the assembly to look in where the type
is not defined in the same module. A reference owns nothing and need not lead anywhere.

## Main definitions

* `TypeRef`: the reference.
* `TypeRef.toDefinition`, `TypeRef.toScope`, `TypeRef.system`, `TypeRef.object`: the usual ones.
* `TypeRef.isRoot`: whether the root of all types is meant.
-/

namespace ModuleAudit

/-- A reference to a type; `scope` is the assembly that defines it, where that is another one. -/
structure TypeRef where
  token : Token
  name : TypeName
  scope : Option String
deriving DecidableEq, Inhabited, Repr

namespace TypeRef

def toDefinition (token : Token) (name : TypeName) : TypeRef := ⟨token, name, none⟩

def toScope (token : Token) (scope : String) (name : TypeName) : TypeRef := ⟨token, name, some scope⟩

def system (name : String) : TypeRef :=
  toScope (.typeRef 0) WellKnown.coreLibrary ⟨"System", name⟩

def object : TypeRef := system "Object"

def isNamed (r : TypeRef) (fullName : String) : Bool := r.name.reads fullName

def isRoot (r : TypeRef) : Bool := r.isNamed WellKnown.object

end TypeRef

end ModuleAudit
