import ModuleAudit.Walk
import ModuleAudit.World

/-!
# Classification by static members

Whether a type could do without instances: its members and those of all its bases, short of the root
of all types, must be static. The bases are followed from registry to registry, since the tokens of a
type mean something only in the registry that owns it.

## Main definitions

* `TypeDef.instanceMember?`: the first member of a type that needs an instance.
* `BaseChain.Stage`: a type on the way up, together with the registry that owns it.
* `BaseChain.step`: what a type on the way up decides, or the base to go on with.
* `World.classify`: the verdict on a type.

## Design notes

An instance constructor with at most one parameter does not count: compilers add one to every class.
Types are told apart by their registry and token. A way up that comes back to a registered type
would go round for ever and never reach the root.
-/

namespace ModuleAudit

inductive InstanceKind where
  | constructor
  | method
  | field
deriving DecidableEq, Repr

/-- Why the way up from a type does not end at the root of all types. -/
inductive Obstacle where
  /-- The type with the token has no base, and is not the root either. -/
  | noBase (token : Token)
  | unresolvedBase (base : TypeRef)
  /-- A type with this token was met before, in the same registry. -/
  | cycle (token : Token)
deriving DecidableEq, Repr

inductive Classification where
  | allStatic
  | instanceMember (owner member : Token) (kind : InstanceKind)
  | unclassifiable (obstacle : Obstacle)
deriving DecidableEq, Repr

namespace Method

/-- How many parameters an instance constructor may have without a need for instances. -/
def toleratedCtorArity : Nat := 1

/-- Whether a method is an instance constructor that somebody wrote for a purpose. -/
def isInstanceCtor (m : Method) : Bool :=
  m.isConstructor && !m.isStatic && decide (toleratedCtorArity < m.arity)

def isInstanceMethod (m : Method) : Bool := !m.isConstructor && !m.isStatic

end Method

namespace TypeDef

/-- The first member of a type that needs an instance: constructors are looked at first, methods
next and fields last. -/
def instanceMember? (t : TypeDef) : Option (Token × InstanceKind) :=
  match t.methods.find? (·.isInstanceCtor) with
  | some m => some (m.token, .constructor)
  | none =>
    match t.methods.find? (·.isInstanceMethod) with
    | some m => some (m.token, .method)
    | none =>
      match t.fields.find? (!·.isStatic) with
      | some f => some (f.token, .field)
      | none => none

end TypeDef

namespace BaseChain

structure Stage where
  home : RegistryId
  type : TypeDef
deriving DecidableEq, Repr

def Stage.key (s : Stage) : RegistryId × Token := (s.home, s.type.token)

def marks (w : World) : List (RegistryId × Token) :=
  (List.range w.registries.length).flatMap fun id => (w.types id).map (id, ·.token)

/-- What a type on the way up decides, or the base to go on with. -/
def step (w : World) (s : Stage) : Step Stage Classification :=
  match s.type.instanceMember? with
  | some (member, kind) => .answer (.instanceMember s.type.token member kind)
  | none =>
    match s.type.base with
    | none => .answer (.unclassifiable (.noBase s.type.token))
    | some base =>
      if base.isRoot then .answer .allStatic
      else
        match w.resolve s.home base with
        | none => .answer (.unclassifiable (.unresolvedBase base))
        | some (next, owner) => .move ⟨owner.getD s.home, next⟩

theorem mem_marks {w : World} {id : RegistryId} {t : TypeDef} (h : t ∈ w.types id) :
    (id, t.token) ∈ marks w := by
  refine List.mem_flatMap.mpr ⟨id, ?_, List.mem_map_of_mem h⟩
  unfold World.types World.registry? at h
  split at h
  · cases h
  · next r hr => exact List.mem_range.mpr (List.getElem?_eq_some_iff.mp hr).1

/-- A step goes to a type that is registered with its new home. -/
theorem mem_types_of_step {w : World} {s next : Stage} (h : step w s = .move next) :
    next.type ∈ w.types next.home := by
  unfold step at h
  split at h
  · cases h
  · split at h
    · cases h
    · split at h
      · cases h
      · split at h
        · cases h
        · next hresolve =>
          cases h
          exact World.mem_types_of_resolve hresolve

def walk (w : World) : Walk Stage (RegistryId × Token) Classification where
  step := step w
  key := Stage.key
  marks := marks w
  key_mem_marks := fun _ _ h => mem_marks (mem_types_of_step h)

end BaseChain

namespace World

/-- The verdict on a type whose references are meant in the given registry. -/
def classify (w : World) (home : RegistryId) (t : TypeDef) : Classification :=
  match (BaseChain.walk w).run ⟨home, t⟩ with
  | .answered verdict => verdict
  | .repeated s => .unclassifiable (.cycle s.type.token)

def isAllStatic (w : World) (home : RegistryId) (t : TypeDef) : Bool :=
  w.classify home t == .allStatic

end World

end ModuleAudit
