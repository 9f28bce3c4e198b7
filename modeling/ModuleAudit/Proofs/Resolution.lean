import Mathlib.Data.List.Induction
import ModuleAudit.Proofs.Loading
import ModuleAudit.Proofs.Permanence
import ModuleAudit.Proofs.Registry

/-!
# What a reference leads to

Types and links come into the registries of a world, and some types are refused. Each registry is then
what the types and links that came to it alone have made of it, in the order in which they came. A
reference leads to a type that was accepted by the registry that is said to own it, and that is found
there under its own token.

## Main definitions

* `Registry.linkAll`: a registry after links were set.
* `World.grown`: the world after a history of types and links, refused types included.
* `World.LeadsTo`: what has to hold of a type and its owner for a reference to lead there.

## Main statements

* `World.registry?_grown`: what has become of each registry of a world.
* `World.resolve_eq_some_iff_leadsTo`: a reference resolves to just what it leads to.
* `World.resolve_grown`: what references lead to after any history.
-/

namespace ModuleAudit

/-! ### One registry -/

namespace Registry

variable {r : Registry} {t : TypeDef}

/-- The registry after links were set, first one first. -/
def linkAll (r : Registry) (links : List (String × RegistryId)) : Registry :=
  links.foldl (fun r link => r.link link.1 link.2) r

theorem linkAll_concat (r : Registry) (links : List (String × RegistryId)) (assembly : String)
    (target : RegistryId) :
    r.linkAll (links ++ [(assembly, target)]) = (r.linkAll links).link assembly target := by
  rw [linkAll, List.foldl_append]
  rfl

theorem types_linkAll (r : Registry) (links : List (String × RegistryId)) :
    (r.linkAll links).types = r.types := by
  induction links using List.reverseRecOn with
  | nil => rfl
  | append_singleton links link ih => rw [linkAll_concat, ← ih]; rfl

/-- Of several links under one assembly name the last one counts. -/
theorem links_linkAll (r : Registry) (links : List (String × RegistryId)) :
    (r.linkAll links).links = links.reverse ++ r.links := by
  induction links using List.reverseRecOn with
  | nil => rfl
  | append_singleton links link ih =>
    rw [linkAll_concat, List.reverse_append, List.append_assoc, ← ih]
    rfl

theorem offer_of_refused (h : ¬∃ r', r.insert t = .ok r') : r.offer t = r := by
  cases hinsert : r.insert t with
  | error e => exact offer_of_error hinsert
  | ok r' => exact absurd ⟨r', hinsert⟩ h

/-- Whether a type is accepted does not depend on links, and no type touches them. -/
theorem offer_link (r : Registry) (assembly : String) (target : RegistryId) (t : TypeDef) :
    (r.link assembly target).offer t = (r.offer t).link assembly target := by
  have hsame : (∃ r', (r.link assembly target).insert t = .ok r') ↔ ∃ r', r.insert t = .ok r' :=
    exists_insert_eq_ok_iff.trans (exists_insert_eq_ok_iff (r := r)).symm
  by_cases haccepted : ∃ r', r.insert t = .ok r'
  · obtain ⟨r', h⟩ := haccepted
    obtain ⟨hdef, hfree, htypes, hlinks, hnames⟩ := insert_eq_ok_iff.mp h
    have hlinked : (r.link assembly target).insert t = .ok (r'.link assembly target) :=
      insert_eq_ok_iff.mpr ⟨hdef, hfree, htypes, congrArg ((assembly, target) :: ·) hlinks, hnames⟩
    rw [offer_of_ok h, offer_of_ok hlinked]
  · rw [offer_of_refused haccepted, offer_of_refused (mt hsame.mp haccepted)]

theorem offer_linkAll (r : Registry) (links : List (String × RegistryId)) (t : TypeDef) :
    (r.linkAll links).offer t = (r.offer t).linkAll links := by
  induction links using List.reverseRecOn with
  | nil => rfl
  | append_singleton links link ih => rw [linkAll_concat, offer_link, ih, linkAll_concat]

theorem links_offerAll (history : List TypeDef) : (offerAll history).links = [] := by
  induction history using List.reverseRecOn with
  | nil => rfl
  | append_singleton history t ih =>
    rw [offerAll_concat]
    cases h : (offerAll history).insert t with
    | error e => rw [offer_of_error h, ih]
    | ok r' =>
      obtain ⟨-, -, -, hlinks, -⟩ := insert_eq_ok_iff.mp h
      rw [offer_of_ok h, hlinks, ih]

end Registry

namespace World

variable {w : World} {n : Nat} {id home : RegistryId} {r : TypeRef} {t : TypeDef}
  {owner : Option RegistryId}

/-! ### A history of types and links -/

def Load.toChange : Load → Change
  | insert home t => .insert home t
  | link home assembly target => .link home assembly target

/-- So many registries, and all that came into them; a type that is refused changes nothing. -/
def grown (n : Nat) (history : List Load) : World :=
  (blank n).changes (history.map Load.toChange)

theorem grown_concat (n : Nat) (history : List Load) (c : Load) :
    grown n (history ++ [c]) = (grown n history).change c.toChange := by
  rw [grown, List.map_append, changes, List.foldl_append]
  rfl

/-- What a registry makes of a type or a link that comes to it. -/
def received (r : Registry) : Load → Registry
  | .insert _ t => r.offer t
  | .link _ assembly target => r.link assembly target

theorem registry?_change_self {r : Registry} {c : Load} (h : w.registry? c.home = some r) :
    World.registry? (w.change c.toChange) c.home = some (received r c) := by
  cases c with
  | link home assembly target =>
    have h : w.registry? home = some r := h
    show World.registry? (w.link home assembly target) home = some (r.link assembly target)
    rw [World.link, h]
    exact registry?_set_self h _
  | insert home t =>
    have h : w.registry? home = some r := h
    show World.registry? (w.change (.insert home t)) home = some (r.offer t)
    cases hinsert : r.insert t with
    | error e =>
      have hrefused : w.insert home t = .error e := by
        rw [World.insert, h]
        exact congrArg (Except.map (w.set home)) hinsert
      rw [change, hrefused, Registry.offer_of_error hinsert]
      exact h
    | ok r' =>
      have haccepted := insert_eq_ok_iff.mpr (.inr ⟨r, r', h, hinsert, rfl⟩)
      rw [change, haccepted, Registry.offer_of_ok hinsert]
      exact registry?_set_self h r'

theorem registry?_change_of_ne {c : Load} (h : c.home ≠ id) :
    World.registry? (w.change c.toChange) id = w.registry? id := by
  cases c with
  | link home assembly target =>
    show World.registry? (w.link home assembly target) id = w.registry? id
    unfold World.link
    split
    · rfl
    · exact registry?_set_of_ne w h _
  | insert home t =>
    show World.registry? (w.change (.insert home t)) id = w.registry? id
    unfold change
    dsimp only
    split
    · rfl
    · next hinsert =>
      rcases insert_eq_ok_iff.mp hinsert with ⟨-, rfl⟩ | ⟨r, r', -, -, rfl⟩
      · rfl
      · exact registry?_set_of_ne w h r'

/-- Each registry of a world is what the types and the links that came to it have made of it. -/
theorem registry?_grown (history : List Load) (h : id < n) :
    World.registry? (grown n history) id =
      some ((Registry.offerAll (typesFor id history)).linkAll (linksFor id history)) := by
  induction history using List.reverseRecOn with
  | nil => exact List.getElem?_replicate_of_lt h
  | append_singleton history c ih =>
    rw [grown_concat, typesFor_append, linksFor_append, typesFor_singleton, linksFor_singleton]
    by_cases hid : c.home = id
    · subst hid
      rw [registry?_change_self ih, if_pos rfl, if_pos rfl]
      cases c with
      | insert home t =>
        show some (Registry.offer _ t) = some ((Registry.offerAll (_ ++ [t])).linkAll (_ ++ []))
        rw [Registry.offer_linkAll, Registry.offerAll_concat, List.append_nil]
      | link home assembly target =>
        show some (Registry.link _ assembly target) =
          some ((Registry.offerAll (_ ++ [])).linkAll (_ ++ [(assembly, target)]))
        rw [Registry.linkAll_concat, List.append_nil]
    · rw [registry?_change_of_ne hid, ih, if_neg hid, if_neg hid, List.append_nil, List.append_nil]

theorem perm_types_grown (history : List Load) (h : id < n) :
    ((grown n history).types id).Perm (Registry.accepted (typesFor id history)) := by
  rw [types_eq_of_lookup (registry?_grown history h), Registry.types_linkAll]
  exact Registry.perm_types_offerAll _

theorem link?_grown (history : List Load) (h : id < n) (assembly : String) :
    (grown n history).link? id assembly = (linksFor id history).reverse.lookup assembly := by
  rw [link?, registry?_grown history h, Option.bind_some, Registry.link?, Registry.links_linkAll,
    Registry.links_offerAll, List.append_nil]

/-! ### References -/

/-- What has to hold of a type and its owner for a reference in a registry to lead there; without an
owner, the registry itself owns the type. -/
structure LeadsTo (w : World) (home : RegistryId) (r : TypeRef) (t : TypeDef)
    (owner : Option RegistryId) : Prop where
  registered : w.get? (owner.getD home) t.token = some t
  here : owner = none ↔ r.token.table = Table.typeDef ∨ r.token.table = Table.typeSpec
  there : ∀ target, owner = some target ↔ r.token.table = Table.typeRef ∧
    ∃ scope, r.scope = some scope ∧ w.link? home scope = some target
  byToken : r.token.table = Table.typeDef → t.token = r.token
  byName : r.token.table = Table.typeRef ∨ r.token.table = Table.typeSpec →
    t.fullName = r.name.text ∧
      ∀ u ∈ w.types (owner.getD home), u.fullName = r.name.text → t.token ≤ u.token

theorem findByName?_eq_some_iff_get? {fullName : String} : w.findByName? id fullName = some t ↔
    w.get? id t.token = some t ∧ t.fullName = fullName ∧
      ∀ u ∈ w.types id, u.fullName = fullName → t.token ≤ u.token := by
  rw [findByName?_eq_some_iff, get?_eq_some_iff, and_iff_left rfl]

/-- A reference resolves to just what it leads to. -/
theorem resolve_eq_some_iff_leadsTo :
    w.resolve home r = some (t, owner) ↔ w.LeadsTo home r t owner := by
  rw [resolve_eq_some_iff]
  constructor
  · rintro (⟨htable, hget, rfl⟩ | ⟨htable, scope, target, hscope, hlink, hfind, rfl⟩ |
      ⟨htable, hfind, rfl⟩)
    · have htoken := (get?_eq_some_iff.mp hget).2
      refine ⟨htoken.symm ▸ hget, ?_, ?_, fun _ => htoken, ?_⟩ <;>
        simp [htable, Table.typeDef, Table.typeRef, Table.typeSpec]
    · obtain ⟨hget, hname⟩ := findByName?_eq_some_iff_get?.mp hfind
      refine ⟨hget, ?_, fun other => ?_, ?_, fun _ => hname⟩
      · simp [htable, Table.typeDef, Table.typeRef, Table.typeSpec]
      · simp [htable, hscope, hlink]
      · simp [htable, Table.typeDef, Table.typeRef]
    · obtain ⟨hget, hname⟩ := findByName?_eq_some_iff_get?.mp hfind
      refine ⟨hget, ?_, ?_, ?_, fun _ => hname⟩ <;>
        simp [htable, Table.typeDef, Table.typeRef, Table.typeSpec]
  · intro h
    cases owner with
    | none =>
      rcases h.here.mp rfl with htable | htable
      · exact .inl ⟨htable, h.byToken htable ▸ h.registered, rfl⟩
      · exact .inr (.inr ⟨htable,
          findByName?_eq_some_iff_get?.mpr ⟨h.registered, h.byName (.inr htable)⟩, rfl⟩)
    | some target =>
      obtain ⟨htable, scope, hscope, hlink⟩ := (h.there target).mp rfl
      exact .inr (.inl ⟨htable, scope, target, hscope, hlink,
        findByName?_eq_some_iff_get?.mpr ⟨h.registered, h.byName (.inl htable)⟩, rfl⟩)

/-- Whatever types and links come into so many registries, each registry holds the types that it accepted
of those that came to it, and under each assembly name the link that came last. A reference leads to a
type that its owner finds under the type's own token. A definition or a signature leads to a type of the
registry itself, any other reference to one of the registry that is linked under its scope; where the name
counts, the type has the full name of the reference, and no type of its owner with this name has a smaller
token. Where there is such a type, the reference leads to it. -/
theorem resolve_grown (n : Nat) (history : List Load) :
    (∀ id < n, ((grown n history).types id).Perm (Registry.accepted (typesFor id history)) ∧
      ∀ assembly, (grown n history).link? id assembly =
        (linksFor id history).reverse.lookup assembly) ∧
    ∀ home r t owner, (grown n history).resolve home r = some (t, owner) ↔
      (grown n history).LeadsTo home r t owner :=
  ⟨fun _ hid => ⟨perm_types_grown history hid, link?_grown history hid⟩,
    fun _ _ _ _ => resolve_eq_some_iff_leadsTo⟩

end World

end ModuleAudit
