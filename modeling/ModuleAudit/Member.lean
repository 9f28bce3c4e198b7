import ModuleAudit.Flags
import ModuleAudit.Token

/-!
# Members of a type

Methods and fields, each with a token of its own table. A member that has no token yet carries the
null token and gets a row when its type joins a module.

## Main definitions

* `Method`, `Field`: the members.
* `Method.isConstructor`: instance and type constructors, recognised by flag and name.
* `Member`: what methods and fields have in common, for the checks that treat them alike.
-/

namespace ModuleAudit

/-- A method: the word of its modifiers and how many parameters it takes. -/
structure Method where
  token : Token
  name : String
  flags : Flags MethodFlag
  arity : Nat
deriving DecidableEq, Repr

namespace Method

def ctorName : String := ".ctor"

def cctorName : String := ".cctor"

/-- An instance constructor without a token. -/
def ctor (arity : Nat) : Method :=
  ⟨.null, ctorName, .ofList [.hideBySig, .specialName, .runtimeSpecialName], arity⟩

def cctor : Method :=
  ⟨.null, cctorName, .ofList [.static, .hideBySig, .specialName, .runtimeSpecialName], 0⟩

def ofStatic (name : String) (arity : Nat) : Method :=
  ⟨.null, name, .ofList [.static, .hideBySig], arity⟩

def ofInstance (name : String) (arity : Nat) : Method :=
  ⟨.null, name, .ofList [.hideBySig], arity⟩

def isStatic (m : Method) : Bool := m.flags.has .static

/-- Whether the method constructs instances or the type: it has a reserved name, and the flag that
makes the runtime honour it. -/
def isConstructor (m : Method) : Bool :=
  m.flags.has .runtimeSpecialName && (m.name == ctorName || m.name == cctorName)

end Method

structure Field where
  token : Token
  name : String
  flags : Flags FieldFlag
deriving DecidableEq, Repr

namespace Field

def ofStatic (name : String) : Field := ⟨.null, name, .ofList [.static]⟩

def ofInstance (name : String) : Field := ⟨.null, name, .empty⟩

def ofConstant (name : String) : Field := ⟨.null, name, .ofList [.static, .literal, .hasDefault]⟩

def isStatic (f : Field) : Bool := f.flags.has .static

end Field

/-- The two kinds of members, each with a metadata table of its own. -/
inductive MemberKind where
  | method
  | field
deriving DecidableEq, Repr

def MemberKind.table : MemberKind → UInt8
  | .method => Table.methodDef
  | .field => Table.field

/-- A method or a field, as far as both are named and numbered alike. -/
structure Member where
  kind : MemberKind
  name : String
  token : Token
deriving DecidableEq, Repr

def Method.toMember (m : Method) : Member := ⟨.method, m.name, m.token⟩

def Field.toMember (f : Field) : Member := ⟨.field, f.name, f.token⟩

end ModuleAudit
