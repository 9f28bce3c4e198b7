import Mathlib.Data.List.Forall2
import ModuleAudit.Proofs.Invariant

/-!
# What stays for good

A definition that is accepted goes into the module as it came, with tokens where it had none. From then
on the reference that was handed out leads to it: in the draft whatever is called later, and in the
finished module however the world changes around it. No type is ever taken out of a registry, and a
token leads to one type only; links and full names, which later types can get hold of, do not matter to
a reference to a definition.

## Main definitions

* `Token.FilledBy`, `TypeDef.Completes`: a token, and a type, that stays what it was where it was given.
* `World.Change`, `World.change`, `World.changes`: types, links and registries that come into a world,
  refused types included.

## Main statements

* `TypeDef.completes_number`: numbering changes nothing but null tokens.
* `World.types_subset_changes`: no change takes a type out of a registry.
* `Draft.resolve_define`: the reference to an accepted definition leads to it for good.
-/

namespace ModuleAudit

/-! ### Types with all their tokens -/

/-- The second token is the first one, or stands where that was null. -/
def Token.FilledBy (x y : Token) : Prop := y ≠ .null ∧ (x ≠ .null → y = x)

/-- The second type is the first one, with tokens in the place of null tokens. -/
structure TypeDef.Completes (t u : TypeDef) : Prop where
  token : t.token.FilledBy u.token
  name : u.name = t.name
  flags : u.flags = t.flags
  base : u.base = t.base
  enclosing : u.enclosing = t.enclosing
  attributes : u.attributes = t.attributes
  methods : List.Forall₂ (fun m m' => ∃ token, m.token.FilledBy token ∧ m' = { m with token })
    t.methods u.methods
  fields : List.Forall₂ (fun f f' => ∃ token, f.token.FilledBy token ∧ f' = { f with token })
    t.fields u.fields

theorem Rows.filledBy_fill {table : UInt8} (htable : table ≠ 0) (row : Nat) (x : Token) :
    x.FilledBy (fill table row x) := by
  by_cases hx : x = .null
  · rw [hx, fill_null]
    exact ⟨ofParts_ne_null htable row, fun h => absurd rfl h⟩
  · rw [fill_of_ne_null hx]
    exact ⟨hx, fun _ => rfl⟩

theorem Rows.forall₂_number {table : UInt8} (htable : table ≠ 0) (row : Nat) (l : List Token) :
    List.Forall₂ Token.FilledBy l (number table row l).1 := by
  induction l generalizing row with
  | nil => exact .nil
  | cons x rest ih => exact .cons (filledBy_fill htable row x) (ih _)

theorem forall₂_zipWith {α β γ : Type} {R : α → β → Prop} (f : α → β → γ) {l : List α} {k : List β}
    (h : List.Forall₂ R l k) : List.Forall₂ (fun a c => ∃ b, R a b ∧ c = f a b) l (l.zipWith f k) := by
  induction h with
  | nil => exact .nil
  | cons hab _ ih => exact .cons ⟨_, hab, rfl⟩ ih

theorem TypeDef.completes_number (t : TypeDef) (d : Draft) : t.Completes (d.number t).1 where
  token := Rows.filledBy_fill (by decide) _ _
  name := rfl
  flags := rfl
  base := rfl
  enclosing := rfl
  attributes := rfl
  methods := forall₂_zipWith _ (List.forall₂_map_left_iff.mp (Rows.forall₂_number (by decide) _ _))
  fields := forall₂_zipWith _ (List.forall₂_map_left_iff.mp (Rows.forall₂_number (by decide) _ _))

/-! ### Worlds that change -/

namespace World

variable {w : World} {id other : RegistryId} {t : TypeDef} {r r' : Registry}

inductive Change where
  | insert (id : RegistryId) (t : TypeDef)
  | link (id : RegistryId) (assembly : String) (target : RegistryId)
  | add (r : Registry)

/-- The world after a change. A type that is refused leaves it as it was. -/
def change (w : World) : Change → World
  | .insert id t =>
    match w.insert id t with
    | .error _ => w
    | .ok w' => w'
  | .link id assembly target => w.link id assembly target
  | .add r => (w.add r).2

def changes (w : World) (cs : List Change) : World := cs.foldl change w

theorem types_subset_set (hr : w.registry? id = some r) (h : r.types ⊆ r'.types)
    (other : RegistryId) : w.types other ⊆ (w.set id r').types other := by
  by_cases hid : id = other
  · subst hid
    rw [types_eq_of_lookup hr, types_eq_of_lookup (registry?_set_self hr r')]
    exact h
  · intro u hu
    unfold types at hu ⊢
    rwa [registry?_set_of_ne w hid r']

theorem types_subset_insert {w' : World} (h : w.insert id t = .ok w') (other : RegistryId) :
    w.types other ⊆ w'.types other := by
  rcases insert_eq_ok_iff.mp h with ⟨-, rfl⟩ | ⟨r, r', hr, hinsert, rfl⟩
  · exact List.Subset.refl _
  · refine types_subset_set hr (fun u hu => ?_) other
    exact (Registry.mem_types_of_insert hinsert).mpr (.inr hu)

theorem types_subset_link (w : World) (id : RegistryId) (assembly : String) (target : RegistryId)
    (other : RegistryId) : w.types other ⊆ (w.link id assembly target).types other := by
  unfold link
  split
  · exact List.Subset.refl _
  · next r hr =>
    have hsame : r.types ⊆ (r.link assembly target).types := List.Subset.refl _
    exact types_subset_set hr hsame other

theorem types_subset_add (w : World) (r : Registry) (other : RegistryId) :
    w.types other ⊆ (w.add r).2.types other := by
  intro u hu
  cases hs : w.registry? other with
  | none =>
    rw [types, hs] at hu
    cases hu
  | some s =>
    rw [types_eq_of_lookup hs] at hu
    rwa [types_eq_of_lookup (registry?_add_of_lookup hs r)]

/-- No change takes a type out of a registry. -/
theorem types_subset_change (w : World) (c : Change) (other : RegistryId) :
    w.types other ⊆ (w.change c).types other := by
  cases c with
  | insert id t =>
    simp only [change]
    split
    · exact List.Subset.refl _
    · next hinsert => exact types_subset_insert hinsert other
  | link id assembly target => exact types_subset_link w id assembly target other
  | add r => exact types_subset_add w r other

theorem types_subset_changes (w : World) (cs : List Change) (id : RegistryId) :
    w.types id ⊆ (w.changes cs).types id := by
  induction cs generalizing w with
  | nil => exact List.Subset.refl _
  | cons c rest ih => exact List.Subset.trans (w.types_subset_change c id) (ih (w.change c))

/-- A reference to a registered type leads to it, in the registry itself. -/
theorem resolve_toRef (ht : t ∈ w.types id) (htable : t.token.table = Table.typeDef) :
    w.resolve id t.toRef = some (t, none) :=
  resolve_eq_some_iff.mpr (.inl ⟨htable, get?_eq_some_iff.mpr ⟨ht, rfl⟩, rfl⟩)

end World

/-! ### Accepted definitions -/

namespace Draft

variable {d : Draft} {t : TypeDef} {r : TypeRef}

/-- An accepted definition is registered with its tokens, and the reference names it. -/
theorem mem_types_of_define (h : (d.define t).1 = .ok r) :
    (d.number t).1 ∈ (d.define t).2.registry.types ∧
      (d.number t).1.token.table = Table.typeDef ∧ r = (d.number t).1.toRef := by
  obtain ⟨-, hr, hdef, htypes, -⟩ := define_eq_ok h
  refine ⟨?_, (Token.isDefinition_iff.mp hdef).1, hr⟩
  rw [htypes]
  exact Registry.mem_insertSorted.mpr (.inl rfl)

/-- The reference to an accepted definition leads to it for good, among the types of the module itself:
in the draft whatever is called later, and in the finished module whatever types, links and registries
come into its world. What it leads to is the definition with tokens where it had none. -/
theorem resolve_define (h : (d.define t).1 = .ok r) :
    ∃ u, t.Completes u ∧ r.token = u.token ∧ r.name.text = u.fullName ∧ ∀ calls,
      (∀ w id, World.registry? w id = some ((d.define t).2.run calls).registry →
        w.resolve id r = some (u, none)) ∧
      ∀ w m w' changes, ((d.define t).2.run calls).finish w = (m, w') →
        (w'.changes changes).resolve m.registry r = some (u, none) := by
  obtain ⟨hmem, htable, rfl⟩ := mem_types_of_define h
  refine ⟨_, t.completes_number d, rfl, rfl, fun calls => ?_⟩
  have hrun : (d.number t).1 ∈ ((d.define t).2.run calls).registry.types :=
    ((d.define t).2.precedes_run calls).types hmem
  constructor
  · intro w id hid
    rw [← World.types_eq_of_lookup hid] at hrun
    exact World.resolve_toRef hrun htable
  · rintro w m w' changes hfinish
    cases hfinish
    rw [← World.types_eq_of_lookup (w.registry?_add_self _)] at hrun
    exact World.resolve_toRef (World.types_subset_changes _ changes _ hrun) htable

/-- A draft in which a row of methods was handed out for nothing. -/
def marked : Draft := (single.call again).2

def tool : TypeDef :=
  { TypeDef.ofClass ⟨"Acme", "Tool"⟩ with
    base := some .object
    attributes := ["System.ObsoleteAttribute"]
    methods := [.ofStatic "open" 0, { Method.ofStatic "close" 1 with token := .methodDef 7 }]
    fields := [.ofStatic "size"] }

/-- A type under the token that `tool` gets, the same definition once more, and a type that is accepted. -/
def toolCalls : List Call :=
  [.define { tool with token := .typeDef 2 }, .define tool, .add (probe (.typeDef 5) [] [])]

/-- Another type of the full name of `tool`, one under its token, and a link. -/
def toolChanges : List World.Change :=
  [.insert 0 { TypeDef.ofClass ⟨"", "Acme.Tool"⟩ with token := .typeDef 1000 },
    .insert 0 { TypeDef.ofInterface ⟨"Acme", "Other"⟩ with token := .typeDef 2 },
    .link 0 "Acme" 0]

theorem resolve_define_tool :
    (marked.define tool).1 = .ok (.toDefinition (.typeDef 2) ⟨"Acme", "Tool"⟩) ∧
      ((marked.define tool).2.answers toolCalls).map (·.isOk) = [false, false, true] ∧
      ∃ u, tool.Completes u ∧ u.memberTokens = [.methodDef 2, .methodDef 7, .field 1] ∧
        World.resolve ((((marked.define tool).2.run toolCalls).finish .empty).2.changes toolChanges) 0
          (.toDefinition (.typeDef 2) ⟨"Acme", "Tool"⟩) = some (u, none) := by
  have hdefine : (marked.define tool).1 = .ok (.toDefinition (.typeDef 2) ⟨"Acme", "Tool"⟩) := rfl
  refine ⟨hdefine, by decide +kernel, ?_⟩
  obtain ⟨u, hcompletes, -, -, hlater⟩ := resolve_define hdefine
  have hresolve := (hlater toolCalls).2 .empty _ _ toolChanges rfl
  refine ⟨u, hcompletes, ?_, hresolve⟩
  have hfound : World.resolve
      ((((marked.define tool).2.run toolCalls).finish .empty).2.changes toolChanges) 0
      (.toDefinition (.typeDef 2) ⟨"Acme", "Tool"⟩) = some ((marked.number tool).1, none) := by
    decide +kernel
  have hu : u = (marked.number tool).1 :=
    congrArg Prod.fst (Option.some.inj (hresolve.symm.trans hfound))
  rw [hu]
  rfl

end Draft

end ModuleAudit
