import ModuleAudit.Error
import ModuleAudit.Framework
import ModuleAudit.Text.Blank
import ModuleAudit.Text.Numeral

/-!
# Version texts

The root of a module's metadata names its framework by a text such as `v2.0.50727`, padded with NUL
characters. Only the major and the minor number count; what follows the minor number is free.

## Main definitions

* `Version.body`: a version text without its padding, the white space around it and a leading `v`.
* `Version.number?`: the major and the minor number of a version text.
* `Framework.ofVersion?`: the framework that a version text names.
* `Framework.ofVersion`: the same, with the text as the cause where it names none.
-/

namespace ModuleAudit

namespace Version

def dropMark : List Char → List Char
  | 'v' :: cs => cs
  | cs => cs

/-- The part of a version text that counts: trailing NUL characters go first, then the white space
at both ends, then one leading `v`. -/
def body (cs : List Char) : List Char :=
  dropMark (Blank.trim (Blank.dropTrailing (· == '\x00') cs))

def splitPoint (cs : List Char) : List Char × Option (List Char) :=
  (cs.takeWhile (· != '.'),
    match cs.dropWhile (· != '.') with
    | [] => none
    | _ :: rest => some rest)

/-- The major number is all that stands before the first point, the minor number the digits that
follow the point. -/
def number? (cs : List Char) : Option (Nat × Nat) :=
  match splitPoint (body cs) with
  | (_, none) => none
  | (major, some rest) => do
    let major ← Numeral.signed? major
    let minor ← Numeral.bare? (rest.takeWhile Char.isDigit)
    return (major, minor)

end Version

/-- The framework that a version text names, if it names a known one. -/
def Framework.ofVersion? (version : String) : Option Framework := do
  let (major, minor) ← Version.number? version.toList
  Framework.ofVersionNumber? major minor

/-- The framework that a version text names. A text that names none is reported as it was given. -/
def Framework.ofVersion (version : String) : Except MetadataError Framework :=
  match Framework.ofVersion? version with
  | none => .error (.unknownFramework version)
  | some framework => .ok framework

end ModuleAudit
