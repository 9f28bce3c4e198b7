/-!
# Flag words

Metadata stores the modifiers of a member as bits of one word. Only some of the bits have a name;
a word read from metadata keeps those and forgets the others.

## Main definitions

* `Flag`: a kind of flag, as a list of named flags with the bit of each.
* `Flags`: a word of such flags, with `Flags.ofWord`, `Flags.ofList`, `Flags.has`, `Flags.toList`.
* `MethodFlag`, `FieldFlag`: the named modifiers of methods and of fields.
-/

namespace ModuleAudit

/-- A kind of flag: its members in order, and the bit that stands for each of them. -/
class Flag (φ : Type) where
  all : List φ
  bit : φ → UInt32

/-- A word whose bits are flags of one kind. -/
structure Flags (φ : Type) where
  bits : UInt32
deriving DecidableEq, Inhabited, Repr

namespace Flags

variable {φ : Type} [Flag φ]

def ofList (flags : List φ) : Flags φ :=
  ⟨flags.foldl (fun word f => word ||| Flag.bit f) 0⟩

def empty : Flags φ := ⟨0⟩

def full (φ : Type) [Flag φ] : Flags φ := ofList (Flag.all (φ := φ))

/-- The named flags of a word read from metadata; all other bits are cleared. -/
def ofWord (word : UInt32) : Flags φ := ⟨word &&& (full φ).bits⟩

def has (s : Flags φ) (f : φ) : Bool := s.bits &&& Flag.bit f == Flag.bit f

def toList (s : Flags φ) : List φ := (Flag.all (φ := φ)).filter s.has

end Flags

inductive MethodFlag where
  | static
  | final
  | virtual
  | hideBySig
  | newSlot
  | abstract
  | specialName
  | runtimeSpecialName
  | platformInvoke
deriving DecidableEq, Repr

instance : Flag MethodFlag where
  all := [.static, .final, .virtual, .hideBySig, .newSlot, .abstract, .specialName,
    .runtimeSpecialName, .platformInvoke]
  bit
    | .static => 0x0010
    | .final => 0x0020
    | .virtual => 0x0040
    | .hideBySig => 0x0080
    | .newSlot => 0x0100
    | .abstract => 0x0400
    | .specialName => 0x0800
    | .runtimeSpecialName => 0x1000
    | .platformInvoke => 0x2000

inductive FieldFlag where
  | static
  | initOnly
  | literal
  | notSerialized
  | specialName
  | runtimeSpecialName
  | hasDefault
deriving DecidableEq, Repr

instance : Flag FieldFlag where
  all := [.static, .initOnly, .literal, .notSerialized, .specialName, .runtimeSpecialName,
    .hasDefault]
  bit
    | .static => 0x0010
    | .initOnly => 0x0020
    | .literal => 0x0040
    | .notSerialized => 0x0080
    | .specialName => 0x0200
    | .runtimeSpecialName => 0x0400
    | .hasDefault => 0x8000

/-- The bits of a member's word that say who may access it. -/
def memberAccessMask : UInt32 := 0x7

end ModuleAudit
