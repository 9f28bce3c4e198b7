import ModuleAudit.TypeDef

/-!
# Definitions put together

A definition starts out with a name and flags, and is then put together from parts, one after the
other. Attributes, methods and fields add up; all else is what the last part says that speaks of it.

## Main definitions

* `TypeDef.Part`: what can be said about a type in one step.
* `TypeDef.including`, `TypeDef.composed`: a definition with one part more, and one made of parts.
* `TypeDef.Part.methods`, `TypeDef.Part.fields`: the members that parts bring.

## Main statements

* `TypeDef.methods_composed`, `TypeDef.fields_composed`: the members of a definition are those of its
  parts, in order.
-/

namespace ModuleAudit.TypeDef

/-- What can be said about a type in one step, while its definition is put together. -/
inductive Part where
  | token (token : Token)
  | flags (flags : UInt32)
  /-- Flags on top of those that were there before. -/
  | moreFlags (flags : UInt32)
  | base (base : TypeRef)
  | enclosing (token : Token)
  | attribute (fullName : String)
  | method (m : Method)
  | field (f : Field)
deriving DecidableEq, Repr

namespace Part

def method? : Part → Option Method
  | method m => some m
  | _ => none

def field? : Part → Option Field
  | field f => some f
  | _ => none

/-- The methods that parts bring, in order. -/
def methods (parts : List Part) : List Method := parts.filterMap method?

def fields (parts : List Part) : List Field := parts.filterMap field?

end Part

/-- A definition with one part more. -/
def including (t : TypeDef) : Part → TypeDef
  | .token token => { t with token }
  | .flags flags => { t with flags }
  | .moreFlags flags => { t with flags := t.flags ||| flags }
  | .base base => t.extending base
  | .enclosing token => { t with enclosing := some token }
  | .attribute fullName => { t with attributes := t.attributes ++ [fullName] }
  | .method m => { t with methods := t.methods ++ [m] }
  | .field f => { t with fields := t.fields ++ [f] }

/-- The definition that starts out with a name and flags, and is put together from parts. -/
def composed (name : TypeName) (flags : UInt32) (parts : List Part) : TypeDef :=
  parts.foldl including (ofFlags name flags)

/-- The definitions of a kind are put together too: where they have a base, it is their first part. -/
example (name : TypeName) : ofEnum name =
    composed name (TypeFlags.visible ||| TypeFlags.sealed) [.base (.system "Enum")] := rfl

theorem name_including (t : TypeDef) (part : Part) : (t.including part).name = t.name := by
  cases part <;> rfl

theorem methods_including (t : TypeDef) (part : Part) :
    (t.including part).methods = t.methods ++ part.method?.toList := by
  cases part <;> simp [including, extending, Part.method?]

theorem fields_including (t : TypeDef) (part : Part) :
    (t.including part).fields = t.fields ++ part.field?.toList := by
  cases part <;> simp [including, extending, Part.field?]

/-- No part changes the name. -/
theorem name_foldl_including (t : TypeDef) (parts : List Part) :
    (parts.foldl including t).name = t.name := by
  induction parts generalizing t with
  | nil => rfl
  | cons part rest ih => rw [List.foldl_cons, ih, name_including]

/-- What each part may add to a list of a definition, the parts add to it in order. -/
theorem foldl_including_of_adds {α : Type} {list : TypeDef → List α} {added : Part → Option α}
    (h : ∀ t part, list (t.including part) = list t ++ (added part).toList) (t : TypeDef)
    (parts : List Part) : list (parts.foldl including t) = list t ++ parts.filterMap added := by
  induction parts generalizing t with
  | nil => simp
  | cons part rest ih =>
    rw [List.foldl_cons, ih, h]
    cases hadded : added part <;> simp [hadded]

variable (name : TypeName) (flags : UInt32) (parts : List Part)

@[simp] theorem name_composed : (composed name flags parts).name = name :=
  name_foldl_including _ parts

/-- The methods of a definition are those of its parts, in order. -/
theorem methods_composed : (composed name flags parts).methods = Part.methods parts :=
  foldl_including_of_adds methods_including _ parts

theorem fields_composed : (composed name flags parts).fields = Part.fields parts :=
  foldl_including_of_adds fields_including _ parts

end ModuleAudit.TypeDef
