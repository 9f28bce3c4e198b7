import ModuleAudit.Member
import ModuleAudit.TypeName

/-!
# What can be wrong with metadata

Every way in which a definition, a module or a version text is refused, and how it is worded.

## Main definitions

* `MetadataError`: the causes.
* `MetadataError.message`: the wording of each cause.
-/

namespace ModuleAudit

inductive MetadataError where
  | unknownFramework (version : String)
  /-- A member carries a token of a table that its kind does not live in. -/
  | wrongMemberTable (member : Member) (owner : TypeName)
  /-- A member carries the token of an earlier member of the same type. -/
  | repeatedMemberToken (member : Member) (owner : TypeName)
  /-- A member carries a token that a type registered before it uses. -/
  | memberTokenInUse (token : Token) (owner : TypeName) (module : String)
  /-- A type carries a token that names no row of the table of defined types. -/
  | notADefinition (token : Token) (type : TypeName)
  | typeTokenInUse (token : Token)
deriving DecidableEq, Repr

namespace MetadataError

def wrongTableText (member : Member) (owner : TypeName) : String :=
  match member.kind with
  | .method =>
    s!"Method '{member.name}' of '{owner.dotted}' has non-MethodDef token {member.token.text}"
  | .field => s!"Field '{member.name}' of '{owner.dotted}' has non-Field token {member.token.text}"

def repeatedText (member : Member) (owner : TypeName) : String :=
  match member.kind with
  | .method => s!"Duplicate method token {member.token.text} in '{owner.dotted}'"
  | .field => s!"Duplicate field token {member.token.text} in '{owner.dotted}'"

/-- The wording of each cause. Where only the members of one type are at fault, the type is named
with a point also outside every namespace; otherwise it is named by its full name. -/
def message : MetadataError → String
  | unknownFramework version => "Unknown target runtime version - " ++ version
  | wrongMemberTable member owner => wrongTableText member owner
  | repeatedMemberToken member owner => repeatedText member owner
  | memberTokenInUse token owner module =>
    s!"Member token {token.text} of '{owner.text}' is already used in module '{module}'"
  | notADefinition token type => s!"Type '{type.text}' has invalid TypeDef token {token.text}"
  | typeTokenInUse token => s!"Failed to insert new type into TypeRegistry - {token.text}"

end MetadataError

end ModuleAudit
