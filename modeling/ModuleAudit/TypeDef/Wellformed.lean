import ModuleAudit.Error
import ModuleAudit.TypeDef

/-!
# Well-formed definitions

The members of a definition must carry tokens of their own tables, and no token twice. A member may
also be without a token; any number of them may.

## Main definitions

* `Member.fault?`: what is wrong with a member, given the tokens before it.
* `TypeDef.fault?`: the first fault of a definition, methods before fields.
* `TypeDef.checked`: the definition, or its first fault.
-/

namespace ModuleAudit

/-- What is wrong with the token of a member of `owner` behind members with the tokens `earlier`. -/
def Member.fault? (owner : TypeName) (earlier : List Token) (m : Member) : Option MetadataError :=
  if m.token.isNull then none
  else if m.token.table ≠ m.kind.table then some (.wrongMemberTable m owner)
  else if m.token ∈ earlier then some (.repeatedMemberToken m owner)
  else none

def Member.firstFault? (owner : TypeName) : List Token → List Member → Option MetadataError
  | _, [] => none
  | earlier, m :: rest =>
    match m.fault? owner earlier with
    | some fault => some fault
    | none => firstFault? owner (m.token :: earlier) rest

namespace TypeDef

def fault? (t : TypeDef) : Option MetadataError := Member.firstFault? t.name [] t.members

def checked (t : TypeDef) : Except MetadataError TypeDef :=
  match t.fault? with
  | some fault => .error fault
  | none => .ok t

end TypeDef

end ModuleAudit
