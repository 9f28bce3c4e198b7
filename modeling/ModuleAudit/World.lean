import ModuleAudit.Registry

/-!
# Worlds of registries

Registries refer to each other by identity, freely and in circles: a world says which registry each
identity stands for. References are resolved in a world, from a registry where they are meant.

## Main definitions

* `World`: the registries, numbered from zero.
* `World.add`, `World.insert`, `World.link`: the ways in which a world grows.
* `World.resolve`: the definition that a reference leads to, and the registry that owns it.

## Main statements

* `World.resolve_eq_some_iff`: the three ways in which a definition is found.
* `World.mem_types_of_resolve`: what is found is registered with its owner.
-/

namespace ModuleAudit

/-- Registries, each known by its place. -/
structure World where
  registries : List Registry

namespace World

def empty : World := ⟨[]⟩

instance : Inhabited World := ⟨empty⟩

def registry? (w : World) (id : RegistryId) : Option Registry := w.registries[id]?

/-- The types of a registry in the order of their tokens; a registry that is not there has none. -/
def types (w : World) (id : RegistryId) : List TypeDef :=
  match w.registry? id with
  | none => []
  | some r => r.types

def get? (w : World) (id : RegistryId) (token : Token) : Option TypeDef :=
  (w.registry? id).bind (·.get? token)

def findByName? (w : World) (id : RegistryId) (fullName : String) : Option TypeDef :=
  (w.registry? id).bind (·.findByName? fullName)

def link? (w : World) (id : RegistryId) (assembly : String) : Option RegistryId :=
  (w.registry? id).bind (·.link? assembly)

def add (w : World) (r : Registry) : RegistryId × World :=
  (w.registries.length, ⟨w.registries ++ [r]⟩)

def set (w : World) (id : RegistryId) (r : Registry) : World := ⟨w.registries.set id r⟩

/-- Registers a type with a registry. A registry that is not there takes nothing in. -/
def insert (w : World) (id : RegistryId) (t : TypeDef) : Except MetadataError World :=
  match w.registry? id with
  | none => .ok w
  | some r => (r.insert t).map (w.set id)

def link (w : World) (id : RegistryId) (assembly : String) (target : RegistryId) : World :=
  match w.registry? id with
  | none => w
  | some r => w.set id (r.link assembly target)

/-- The definition that a reference in a registry leads to, and the registry that owns it where that
is another one than the reference is meant in. A definition is looked up by its token; a reference
to another assembly by its full name, there; a signature by its full name, here. -/
def resolve (w : World) (id : RegistryId) (r : TypeRef) : Option (TypeDef × Option RegistryId) :=
  if r.token.table = Table.typeDef then (w.get? id r.token).map (·, none)
  else if r.token.table = Table.typeRef then do
    let scope ← r.scope
    let owner ← w.link? id scope
    let t ← w.findByName? owner r.name.text
    return (t, some owner)
  else if r.token.table = Table.typeSpec then (w.findByName? id r.name.text).map (·, none)
  else none

def resolveType (w : World) (id : RegistryId) (r : TypeRef) : Option TypeDef :=
  (w.resolve id r).map (·.1)

theorem registry?_add_self (w : World) (r : Registry) :
    World.registry? (w.add r).2 (w.add r).1 = some r := List.getElem?_concat_length

theorem registry?_add_of_lookup {w : World} {id : RegistryId} {s : Registry}
    (h : w.registry? id = some s) (r : Registry) : World.registry? (w.add r).2 id = some s :=
  (List.getElem?_append_left (List.getElem?_eq_some_iff.mp h).1).trans h

theorem registry?_set_self {w : World} {id : RegistryId} {s : Registry}
    (h : w.registry? id = some s) (r : Registry) : World.registry? (w.set id r) id = some r :=
  List.getElem?_set_self (List.getElem?_eq_some_iff.mp h).1

theorem registry?_set_of_ne (w : World) {id other : RegistryId} (h : id ≠ other) (r : Registry) :
    World.registry? (w.set id r) other = w.registry? other := List.getElem?_set_ne h

theorem types_eq_of_lookup {w : World} {id : RegistryId} {r : Registry}
    (h : w.registry? id = some r) : w.types id = r.types := by
  rw [types, h]

theorem types_set_of_ne {w : World} {id other : RegistryId} (h : id ≠ other) (r : Registry) :
    (w.set id r).types other = w.types other := by
  unfold types
  rw [registry?_set_of_ne w h r]

theorem link?_set_of_ne {w : World} {id other : RegistryId} (h : id ≠ other) (r : Registry)
    (assembly : String) : (w.set id r).link? other assembly = w.link? other assembly := by
  unfold link?
  rw [registry?_set_of_ne w h r]

theorem pairwise_types (w : World) (id : RegistryId) :
    (w.types id).Pairwise (fun t u => t.token < u.token) := by
  unfold types
  cases w.registry? id with
  | none => exact .nil
  | some r => exact r.sorted

theorem insert_eq_ok_iff {w w' : World} {id : RegistryId} {t : TypeDef} :
    w.insert id t = .ok w' ↔ w.registry? id = none ∧ w' = w ∨
      ∃ r r', w.registry? id = some r ∧ r.insert t = .ok r' ∧ w' = w.set id r' := by
  unfold insert
  cases w.registry? id with
  | none => simp [eq_comm]
  | some r => cases h : r.insert t <;> simp [Except.map, h, eq_comm]

theorem get?_eq_some_iff {w : World} {id : RegistryId} {token : Token} {t : TypeDef} :
    w.get? id token = some t ↔ t ∈ w.types id ∧ t.token = token := by
  unfold get? types
  cases w.registry? id with
  | none => simp
  | some r => exact Registry.get?_eq_some_iff

theorem findByName?_eq_some_iff {w : World} {id : RegistryId} {fullName : String} {t : TypeDef} :
    w.findByName? id fullName = some t ↔ t ∈ w.types id ∧ t.fullName = fullName ∧
      ∀ u ∈ w.types id, u.fullName = fullName → t.token ≤ u.token := by
  unfold findByName? types
  cases w.registry? id with
  | none => simp
  | some r => exact Registry.findByName?_eq_some_iff

theorem get?_eq_find? (w : World) (home : RegistryId) (token : Token) :
    w.get? home token = (w.types home).find? (·.token == token) := by
  unfold get? types
  cases w.registry? home <;> rfl

/-- Types stand in the order of their tokens, so the one with the least token comes first. -/
theorem findByName?_eq_find? (w : World) (home : RegistryId) (fullName : String) :
    w.findByName? home fullName = (w.types home).find? (·.fullName == fullName) := by
  ext t
  rw [findByName?_eq_some_iff, List.find?_eq_some_iff_append, beq_iff_eq]
  constructor
  · rintro ⟨ht, hname, hleast⟩
    obtain ⟨before, after, hsplit⟩ := List.append_of_mem ht
    refine ⟨hname, before, after, hsplit, fun u hu => ?_⟩
    have hsorted := pairwise_types w home
    rw [hsplit, List.pairwise_append] at hsorted
    have hlt := hsorted.2.2 u hu t List.mem_cons_self
    rw [Bool.not_eq_true', beq_eq_false_iff_ne]
    intro hun
    have hle := hleast u (hsplit ▸ List.mem_append_left _ hu) hun
    exact Token.lt_irrefl _ (Token.lt_of_le_of_lt hle hlt)
  · rintro ⟨hname, before, after, hsplit, hbefore⟩
    refine ⟨hsplit ▸ List.mem_append_right _ List.mem_cons_self, hname, fun u hu hun => ?_⟩
    have hsorted := pairwise_types w home
    rw [hsplit] at hu hsorted
    rcases List.mem_append.mp hu with hu | hu
    · have hne := hbefore u hu
      simp [hun] at hne
    · rcases List.mem_cons.mp hu with rfl | hu
      · exact Token.le_refl _
      · exact Token.le_of_lt ((List.pairwise_cons.mp (List.pairwise_append.mp hsorted).2.1).1 u hu)

theorem mem_types_of_findByName? {w : World} {id : RegistryId} {fullName : String} {t : TypeDef}
    (h : w.findByName? id fullName = some t) : t ∈ w.types id ∧ t.fullName = fullName := by
  obtain ⟨hmem, hname, -⟩ := findByName?_eq_some_iff.mp h
  exact ⟨hmem, hname⟩

/-- A definition is found in one of three ways: by its token here, by its full name in the registry
that its assembly is linked to, or by its full name here. -/
theorem resolve_eq_some_iff {w : World} {id : RegistryId} {r : TypeRef} {t : TypeDef}
    {owner : Option RegistryId} : w.resolve id r = some (t, owner) ↔
      (r.token.table = Table.typeDef ∧ w.get? id r.token = some t ∧ owner = none) ∨
      (r.token.table = Table.typeRef ∧ ∃ scope target, r.scope = some scope ∧
        w.link? id scope = some target ∧ w.findByName? target r.name.text = some t ∧
        owner = some target) ∨
      (r.token.table = Table.typeSpec ∧ w.findByName? id r.name.text = some t ∧ owner = none) := by
  have hhere : ∀ found : Option TypeDef,
      found.map (·, none) = some (t, owner) ↔ found = some t ∧ owner = none := by
    intro found
    cases found <;> simp [@eq_comm _ none owner]
  unfold resolve
  split
  · next hdef =>
    rw [hhere]
    simp [hdef, Table.typeDef, Table.typeRef, Table.typeSpec]
  · next hdef =>
    split
    · next href =>
      constructor
      · intro h
        obtain ⟨scope, hscope, h⟩ := Option.bind_eq_some_iff.mp h
        obtain ⟨target, hlink, h⟩ := Option.bind_eq_some_iff.mp h
        obtain ⟨u, hfind, h⟩ := Option.bind_eq_some_iff.mp h
        cases h
        exact .inr (.inl ⟨href, scope, target, hscope, hlink, hfind, rfl⟩)
      · rintro (⟨hdef', -⟩ | ⟨-, scope, target, hscope, hlink, hfind, rfl⟩ | ⟨hspec, -⟩)
        · exact absurd hdef' hdef
        · simp [hscope, hlink, hfind]
        · exact absurd (href.symm.trans hspec) (by decide)
    · next href =>
      split
      · next hspec =>
        rw [hhere]
        simp [hspec, Table.typeDef, Table.typeRef, Table.typeSpec]
      · next hspec => simp [hdef, href, hspec]

/-- What a reference leads to is registered with the registry that owns it. -/
theorem mem_types_of_resolve {w : World} {id : RegistryId} {r : TypeRef} {t : TypeDef}
    {owner : Option RegistryId} (h : w.resolve id r = some (t, owner)) :
    t ∈ w.types (owner.getD id) := by
  rcases resolve_eq_some_iff.mp h with
    ⟨-, hget, rfl⟩ | ⟨-, scope, target, -, -, hfind, rfl⟩ | ⟨-, hfind, rfl⟩
  · exact (get?_eq_some_iff.mp hget).1
  · exact (mem_types_of_findByName? hfind).1
  · exact (mem_types_of_findByName? hfind).1

end World

end ModuleAudit
