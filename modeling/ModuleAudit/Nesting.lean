import ModuleAudit.Walk
import ModuleAudit.World

/-!
# Nesting

A type can be nested in another one, and that in a third. Code that a tool made marks the outermost
type only, so what it encloses counts as generated too.

## Main definitions

* `Registry.enclosing?`: the registered type that a type is nested in.
* `Registry.nestingWalk`: outwards from type to enclosing type, until one is generated.
* `Registry.isGenerated`: whether a type, or any type around it, is generated.
* `World.isGenerated`: the same of a registry that is given by its identity.

## Design notes

Nesting need not be well founded: types may enclose each other in a circle. A walk that comes back
to a token has looked at every type around it, and found none that is generated.
-/

namespace ModuleAudit

namespace Registry

def enclosing? (r : Registry) (t : TypeDef) : Option TypeDef := t.enclosing.bind r.get?

/-- One step outwards: a generated type settles the question, and so does an outermost one. -/
def nestingStep (r : Registry) (t : TypeDef) : Step TypeDef Bool :=
  if t.isSelfGenerated then .answer true
  else
    match r.enclosing? t with
    | none => .answer false
    | some u => .move u

theorem enclosing?_of_nestingStep {r : Registry} {t u : TypeDef} (h : r.nestingStep t = .move u) :
    r.enclosing? t = some u := by
  unfold nestingStep at h
  split at h
  · cases h
  · split at h <;> simp_all

def nestingWalk (r : Registry) : Walk TypeDef Token Bool where
  step := r.nestingStep
  key := (·.token)
  marks := r.tokens
  key_mem_marks := by
    intro t u h
    obtain ⟨token, -, hget⟩ := Option.bind_eq_some_iff.mp (enclosing?_of_nestingStep h)
    exact List.mem_map_of_mem (get?_eq_some_iff.mp hget).1

/-- Whether a type or any type that encloses it is generated. -/
def isGenerated (r : Registry) (t : TypeDef) : Bool :=
  match r.nestingWalk.run t with
  | .answered verdict => verdict
  | .repeated _ => false

end Registry

def World.isGenerated (w : World) (home : RegistryId) (t : TypeDef) : Bool :=
  ((w.registry? home).getD .empty).isGenerated t

end ModuleAudit
