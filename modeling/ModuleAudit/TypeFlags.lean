/-!
# Attributes of a type definition

The attributes of a type are a plain word, of which the library gives a meaning to the following
parts. The visibility and the class semantics are fields of several bits, compared as a whole; the
others are single bits.
-/

namespace ModuleAudit.TypeFlags

/-- The bits that say from where the type is visible. -/
def visibilityMask : UInt32 := 0x7

def notVisible : UInt32 := 0x0

def visible : UInt32 := 0x1

def nestedVisible : UInt32 := 0x2

def nestedHidden : UInt32 := 0x3

/-- The bits that tell a class from an interface. -/
def semanticsMask : UInt32 := 0x20

def classSemantics : UInt32 := 0x0

def interfaceSemantics : UInt32 := 0x20

def abstract : UInt32 := 0x80

def sealed : UInt32 := 0x100

def specialName : UInt32 := 0x400

def serializable : UInt32 := 0x2000

/-- The type may be initialized at any time before its first static field is used. -/
def beforeFieldInit : UInt32 := 0x100000

def hasAll (mask word : UInt32) : Bool := word &&& mask == mask

def isInterface (word : UInt32) : Bool := word &&& semanticsMask == interfaceSemantics

/-- Static classes are written as classes that are abstract and sealed at once: nothing can create
an instance of them, and nothing can extend them. -/
def isStaticClass (word : UInt32) : Bool := hasAll (abstract ||| sealed) word

end ModuleAudit.TypeFlags
