/-!
# Names of types

A type is named by a namespace and a name within it. Its full name joins the two with a point; a
type outside every namespace is named by its name alone. A full name is read at its last point, so a
name that itself holds a point reads back under another namespace than it was written from.

## Main definitions

* `TypeName.text`: the full name.
* `TypeName.ofText`: the name that a full name is read as.
* `TypeName.reads`: whether a name is the one that a full name is read as.
* `WellKnown`: the full names that the library gives a meaning to.
-/

namespace ModuleAudit

/-- A namespace, empty for none, and a name in it. -/
structure TypeName where
  space : String
  name : String
deriving DecidableEq, Inhabited, Repr

namespace TypeName

/-- Namespace and name with a point between them, also where the namespace is empty. -/
def dotted (n : TypeName) : String := n.space ++ "." ++ n.name

/-- The full name: the bare name where the namespace is empty. -/
def text (n : TypeName) : String := if n.space = "" then n.name else n.dotted

/-- The characters before the last point and those after it, if there is a point. -/
def splitLastPoint (cs : List Char) : Option (List Char × List Char) :=
  match cs.reverse.dropWhile (· != '.') with
  | [] => none
  | _ :: before => some (before.reverse, (cs.reverse.takeWhile (· != '.')).reverse)

/-- The name that a full name is read as: what follows its last point is the name. -/
def ofText (fullName : String) : TypeName :=
  match splitLastPoint fullName.toList with
  | none => ⟨"", fullName⟩
  | some (space, name) => ⟨String.ofList space, String.ofList name⟩

def reads (n : TypeName) (fullName : String) : Bool := n == ofText fullName

/-- Only the last point of a text is left out of its two parts. -/
theorem splitLastPoint_eq_some {cs before after : List Char}
    (h : splitLastPoint cs = some (before, after)) :
    cs = before ++ '.' :: after ∧ '.' ∉ after := by
  unfold splitLastPoint at h
  split at h
  · cases h
  · next c rest hdrop =>
    simp only [Option.some.injEq, Prod.mk.injEq] at h
    obtain ⟨rfl, rfl⟩ := h
    have hc : c = '.' := by
      have := List.head?_dropWhile_not (fun x => x != '.') cs.reverse
      simp [hdrop] at this
      exact this
    have hsplit := List.takeWhile_append_dropWhile (p := fun x => x != '.') (l := cs.reverse)
    constructor
    · rw [hdrop, hc] at hsplit
      have := congrArg List.reverse hsplit
      simpa using this.symm
    · intro hmem
      have := List.all_eq_true.mp (List.all_takeWhile (p := fun x => x != '.') (l := cs.reverse))
        '.' (List.mem_reverse.mp hmem)
      simp at this

theorem splitLastPoint_append {before after : List Char} (h : '.' ∉ after) :
    splitLastPoint (before ++ '.' :: after) = some (before, after) := by
  have hall : ∀ c ∈ after.reverse, (c != '.') = true := by
    intro c hc
    rw [bne_iff_ne]
    rintro rfl
    exact h (List.mem_reverse.mp hc)
  have hreverse : (before ++ '.' :: after).reverse = after.reverse ++ '.' :: before.reverse := by simp
  rw [splitLastPoint, hreverse, List.dropWhile_append_of_pos hall, List.takeWhile_append_of_pos hall]
  simp

theorem splitLastPoint_eq_none_iff {cs : List Char} : splitLastPoint cs = none ↔ '.' ∉ cs := by
  constructor
  · intro h hmem
    -- of all points, the last one is the first from behind
    obtain ⟨after, before, hsplit, hafter⟩ := List.eq_append_cons_of_mem (List.mem_reverse.mpr hmem)
    have hcs : cs = before.reverse ++ '.' :: after.reverse := by
      have := congrArg List.reverse hsplit
      simpa using this
    rw [hcs, splitLastPoint_append (by simpa using hafter)] at h
    cases h
  · intro h
    cases hsplit : splitLastPoint cs with
    | none => rfl
    | some parts =>
      rw [(splitLastPoint_eq_some hsplit).1] at h
      exact absurd (List.mem_append_right _ List.mem_cons_self) h

end TypeName

namespace WellKnown

def object : String := "System.Object"

def valueType : String := "System.ValueType"

def enum : String := "System.Enum"

def delegate : String := "System.Delegate"

def multicastDelegate : String := "System.MulticastDelegate"

/-- The attribute by which a compiler marks what it made up. -/
def compilerGenerated : String := "System.Runtime.CompilerServices.CompilerGeneratedAttribute"

/-- The attribute by which a tool marks the code it wrote. -/
def generatedCode : String := "System.CodeDom.Compiler.GeneratedCodeAttribute"

def coreLibrary : String := "mscorlib"

end WellKnown

end ModuleAudit
