import ModuleAudit.Member
import ModuleAudit.TypeFlags
import ModuleAudit.TypeRef

/-!
# Type definitions

A type with its members, and the questions about it that need no other type to be answered.

## Main definitions

* `TypeDef`: the definition.
* `TypeDef.isInterface`, `isEnum`, `isValueType`, `isDelegate`, `isDeclaredStatic`, `isNested`,
  `isSelfGenerated`: what kind of type it is.
* `TypeDef.members`, `TypeDef.memberTokens`: methods and fields as one list.
* `TypeDef.ofClass`, `ofStaticClass`, `ofInterface`, `ofValueType`, `ofEnum`, `ofDelegate`: empty
  definitions of each kind.
-/

namespace ModuleAudit

/-- A type definition. `enclosing` is the token of the type it is nested in. -/
structure TypeDef where
  token : Token
  name : TypeName
  flags : UInt32
  base : Option TypeRef
  enclosing : Option Token
  attributes : List String
  methods : List Method
  fields : List Field
deriving DecidableEq, Repr

namespace TypeDef

def fullName (t : TypeDef) : String := t.name.text

def toRef (t : TypeDef) : TypeRef := .toDefinition t.token t.name

def constructors (t : TypeDef) : List Method := t.methods.filter (·.isConstructor)

def plainMethods (t : TypeDef) : List Method := t.methods.filter (!·.isConstructor)

/-- The methods and then the fields, each in declaration order. -/
def members (t : TypeDef) : List Member :=
  t.methods.map (·.toMember) ++ t.fields.map (·.toMember)

def memberTokens (t : TypeDef) : List Token := t.members.map (·.token)

theorem memberTokens_eq (t : TypeDef) :
    t.memberTokens = t.methods.map (·.token) ++ t.fields.map (·.token) := by
  rw [memberTokens, members, List.map_append, List.map_map, List.map_map]
  rfl

def hasBase (t : TypeDef) (fullName : String) : Bool :=
  match t.base with
  | none => false
  | some base => base.isNamed fullName

def isInterface (t : TypeDef) : Bool := TypeFlags.isInterface t.flags

def isEnum (t : TypeDef) : Bool := t.hasBase WellKnown.enum

/-- Enumerations are value types too. -/
def isValueType (t : TypeDef) : Bool := t.hasBase WellKnown.valueType || t.isEnum

def isDelegate (t : TypeDef) : Bool :=
  t.hasBase WellKnown.multicastDelegate || t.hasBase WellKnown.delegate

def isDeclaredStatic (t : TypeDef) : Bool := TypeFlags.isStaticClass t.flags

def isNested (t : TypeDef) : Bool := t.enclosing.isSome

def hasAttribute (t : TypeDef) (fullName : String) : Bool := t.attributes.contains fullName

/-- Whether a name starts with a character that no programmer can write there. -/
def isUnspeakable (name : String) : Bool :=
  match name.toList with
  | '<' :: _ => true
  | '$' :: _ => true
  | _ => false

/-- Whether the type itself shows that a tool made it: by its name or by an attribute. -/
def isSelfGenerated (t : TypeDef) : Bool :=
  isUnspeakable t.name.name || t.hasAttribute WellKnown.compilerGenerated ||
    t.hasAttribute WellKnown.generatedCode

/-- A definition with a name and attributes only. -/
def ofFlags (name : TypeName) (flags : UInt32) : TypeDef :=
  ⟨.null, name, flags, none, none, [], [], []⟩

def extending (base : TypeRef) (t : TypeDef) : TypeDef := { t with base := some base }

def ofClass (name : TypeName) : TypeDef :=
  ofFlags name (TypeFlags.visible ||| TypeFlags.classSemantics)

def ofStaticClass (name : TypeName) : TypeDef :=
  extending .object <| ofFlags name <|
    TypeFlags.visible ||| TypeFlags.abstract ||| TypeFlags.sealed ||| TypeFlags.beforeFieldInit

def ofInterface (name : TypeName) : TypeDef :=
  ofFlags name (TypeFlags.visible ||| TypeFlags.interfaceSemantics ||| TypeFlags.abstract)

def ofValueType (name : TypeName) : TypeDef :=
  extending (.system "ValueType") (ofFlags name (TypeFlags.visible ||| TypeFlags.sealed))

def ofEnum (name : TypeName) : TypeDef :=
  extending (.system "Enum") (ofFlags name (TypeFlags.visible ||| TypeFlags.sealed))

def ofDelegate (name : TypeName) : TypeDef :=
  extending (.system "MulticastDelegate") (ofFlags name (TypeFlags.visible ||| TypeFlags.sealed))

end TypeDef

end ModuleAudit
