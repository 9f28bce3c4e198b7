import ModuleAudit.Error
import ModuleAudit.NameIndex

/-!
# Registries

The types that one module defines, in the order of their tokens, with an index of their full names,
together with the registries of other assemblies that its references may lead to. Those are named by
identifiers; what an identifier stands for is the matter of a `World`.

## Main definitions

* `Registry`: types in strictly increasing order of valid tokens, the index of their full names, and
  links by assembly name.
* `Registry.insert`: adds a type, unless its token is invalid or in use.
* `Registry.get?`, `Registry.findByName?`: the type with a token, and the first with a full name.
* `Registry.link`, `Registry.link?`: sets and reads the registry linked under an assembly name.

## Main statements

* `Registry.get?_eq_some_iff`: looking a token up finds exactly the registered type that carries it.
* `Registry.mem_insertSorted`, `Registry.pairwise_insertSorted`: insertion adds one type and keeps
  the order.
* `Registry.insert_eq_ok_iff`: a type is registered exactly if its token is valid and free.
* `Registry.findByName?_eq_some_iff`: looking a full name up finds the type with the least token among
  those that carry it.
-/

namespace ModuleAudit

abbrev RegistryId := Nat

/-- The types of a module, and the registries that its references to other assemblies lead to. -/
@[ext] structure Registry where
  types : List TypeDef
  links : List (String × RegistryId)
  names : NameIndex := .ofTypes types
  sorted : types.Pairwise (fun a b => a.token < b.token)
  valid : ∀ t ∈ types, t.token.isDefinition = true
  covers : names.Covers types := by exact NameIndex.covers_ofTypes _

namespace Registry

def empty : Registry := ⟨[], [], .empty, .nil, nofun, NameIndex.covers_empty⟩

instance : Inhabited Registry := ⟨empty⟩

def get? (r : Registry) (token : Token) : Option TypeDef :=
  r.types.find? (·.token == token)

/-- The first type, in the order of tokens, with a full name. -/
def findByName? (r : Registry) (fullName : String) : Option TypeDef :=
  (r.names.tokens fullName).min?.bind r.get?

def tokens (r : Registry) : List Token := r.types.map (·.token)

/-- A list of types with one more, put before the first type that has a larger token. -/
def insertSorted (t : TypeDef) : List TypeDef → List TypeDef
  | [] => [t]
  | u :: rest => if t.token < u.token then t :: u :: rest else u :: insertSorted t rest

@[simp] theorem mem_insertSorted {t u : TypeDef} {types : List TypeDef} :
    u ∈ insertSorted t types ↔ u = t ∨ u ∈ types := by
  induction types with
  | nil => simp [insertSorted]
  | cons v rest ih =>
    unfold insertSorted
    split
    · simp
    · simp only [List.mem_cons, ih]
      grind

theorem perm_insertSorted (t : TypeDef) (types : List TypeDef) :
    (insertSorted t types).Perm (t :: types) := by
  induction types with
  | nil => exact .refl _
  | cons u rest ih =>
    unfold insertSorted
    split
    · exact .refl _
    · exact (ih.cons u).trans (.swap t u rest)

theorem pairwise_insertSorted {t : TypeDef} {types : List TypeDef}
    (hsorted : types.Pairwise (fun a b => a.token < b.token))
    (hfresh : ∀ u ∈ types, u.token ≠ t.token) :
    (insertSorted t types).Pairwise (fun a b => a.token < b.token) := by
  induction types with
  | nil => simp [insertSorted]
  | cons v rest ih =>
    obtain ⟨hv, hrest⟩ := List.pairwise_cons.mp hsorted
    unfold insertSorted
    split
    · next hlt =>
      refine List.pairwise_cons.mpr ⟨fun u hu => ?_, hsorted⟩
      rcases List.mem_cons.mp hu with rfl | hu
      · exact hlt
      · exact Token.lt_trans hlt (hv u hu)
    · next hnlt =>
      refine List.pairwise_cons.mpr
        ⟨fun u hu => ?_, ih hrest fun u hu => hfresh u (List.mem_cons_of_mem v hu)⟩
      rcases mem_insertSorted.mp hu with rfl | hu
      · have hne := hfresh v List.mem_cons_self
        rcases Token.lt_trichotomy v.token u.token with h | h | h
        · exact h
        · exact absurd h hne
        · exact absurd h hnlt
      · exact hv u hu

theorem insertSorted_of_forall_lt {t : TypeDef} {types : List TypeDef}
    (h : ∀ u ∈ types, u.token < t.token) : insertSorted t types = types ++ [t] := by
  induction types with
  | nil => rfl
  | cons u rest ih =>
    obtain ⟨hu, hrest⟩ := List.forall_mem_cons.mp h
    have hnlt : ¬t.token < u.token := fun hlt => Token.lt_irrefl _ (Token.lt_trans hu hlt)
    rw [insertSorted, if_neg hnlt, ih hrest, List.cons_append]

theorem get?_eq_none_iff {r : Registry} {token : Token} :
    r.get? token = none ↔ ∀ t ∈ r.types, t.token ≠ token := by
  simp [get?, List.find?_eq_none]

/-- Registers a type. Its token must name a possible definition that no registered type has. -/
def insert (r : Registry) (t : TypeDef) : Except MetadataError Registry :=
  if hdef : t.token.isDefinition = true then
    match hget : r.get? t.token with
    | some _ => .error (.typeTokenInUse t.token)
    | none => .ok {
        types := insertSorted t r.types
        links := r.links
        names := r.names.add t.fullName t.token
        sorted := pairwise_insertSorted r.sorted (get?_eq_none_iff.mp hget)
        valid := fun u hu => (mem_insertSorted.mp hu).elim (fun h => h ▸ hdef) (r.valid u)
        covers := r.covers.add fun _ => mem_insertSorted }
  else .error (.notADefinition t.token t.name)

theorem insert_eq_ok_iff {r r' : Registry} {t : TypeDef} :
    r.insert t = .ok r' ↔ t.token.isDefinition = true ∧ r.get? t.token = none ∧
      r'.types = insertSorted t r.types ∧ r'.links = r.links ∧
      r'.names = r.names.add t.fullName t.token := by
  unfold insert
  split
  · next hdef =>
    split
    · next u hget => simp [hget]
    · next hget =>
      constructor
      · intro h
        cases h
        exact ⟨hdef, hget, rfl, rfl, rfl⟩
      · rintro ⟨-, -, htypes, hlinks, hnames⟩
        exact congrArg Except.ok (Registry.ext htypes.symm hlinks.symm hnames.symm)
  · next hdef => simp [hdef]

theorem mem_types_of_insert {r r' : Registry} {t u : TypeDef} (h : r.insert t = .ok r') :
    u ∈ r'.types ↔ u = t ∨ u ∈ r.types := by
  obtain ⟨-, -, htypes, -⟩ := insert_eq_ok_iff.mp h
  rw [htypes, mem_insertSorted]

theorem exists_insert_eq_ok_iff {r : Registry} {t : TypeDef} :
    (∃ r', r.insert t = .ok r') ↔ t.token.isDefinition = true ∧ r.get? t.token = none := by
  constructor
  · rintro ⟨r', h⟩
    obtain ⟨hdef, hfree, -⟩ := insert_eq_ok_iff.mp h
    exact ⟨hdef, hfree⟩
  · rintro ⟨hdef, hfree⟩
    unfold insert
    rw [dif_pos hdef]
    split
    · next u hget =>
      rw [hfree] at hget
      cases hget
    · exact ⟨_, rfl⟩

def link? (r : Registry) (assembly : String) : Option RegistryId := r.links.lookup assembly

/-- Leads references to an assembly to a registry, instead of where they led before. -/
def link (r : Registry) (assembly : String) (target : RegistryId) : Registry :=
  { r with links := (assembly, target) :: r.links }

@[simp] theorem link?_link_self (r : Registry) (assembly : String) (target : RegistryId) :
    (r.link assembly target).link? assembly = some target := by
  simp [link, link?]

theorem link?_link_of_ne (r : Registry) {assembly other : String} (target : RegistryId)
    (h : other ≠ assembly) : (r.link assembly target).link? other = r.link? other := by
  have : (other == assembly) = false := by simpa using h
  simp [link, link?, List.lookup_cons, this]

theorem eq_of_token_eq {r : Registry} {t u : TypeDef} (ht : t ∈ r.types) (hu : u ∈ r.types)
    (h : t.token = u.token) : t = u := by
  have key : ∀ types : List TypeDef, types.Pairwise (fun a b => a.token < b.token) →
      t ∈ types → u ∈ types → t = u := by
    intro types hsorted
    induction types with
    | nil => intro ht
             cases ht
    | cons v rest ih =>
      obtain ⟨hv, hrest⟩ := List.pairwise_cons.mp hsorted
      intro ht hu
      rcases List.mem_cons.mp ht with ht | ht <;> rcases List.mem_cons.mp hu with hu | hu
      · rw [ht, hu]
      · exact absurd (ht ▸ h) (Token.ne_of_lt (hv u hu))
      · exact absurd (hu ▸ h.symm) (Token.ne_of_lt (hv t ht))
      · exact ih hrest ht hu
  exact key r.types r.sorted ht hu

theorem get?_eq_some_iff {r : Registry} {token : Token} {t : TypeDef} :
    r.get? token = some t ↔ t ∈ r.types ∧ t.token = token := by
  constructor
  · intro h
    exact ⟨List.mem_of_find?_eq_some h, by simpa using List.find?_some h⟩
  · rintro ⟨hmem, rfl⟩
    cases hget : r.get? t.token with
    | none => exact absurd rfl (get?_eq_none_iff.mp hget t hmem)
    | some u =>
      have hu : u.token = t.token := by simpa using List.find?_some hget
      rw [eq_of_token_eq (List.mem_of_find?_eq_some hget) hmem hu]

theorem findByName?_eq_some_iff {r : Registry} {fullName : String} {t : TypeDef} :
    r.findByName? fullName = some t ↔ t ∈ r.types ∧ t.fullName = fullName ∧
      ∀ u ∈ r.types, u.fullName = fullName → t.token ≤ u.token := by
  unfold findByName?
  rw [Option.bind_eq_some_iff]
  constructor
  · rintro ⟨token, hmin, hget⟩
    obtain ⟨hmem, hleast⟩ := List.min?_eq_some_iff.mp hmin
    obtain ⟨ht, rfl⟩ := get?_eq_some_iff.mp hget
    obtain ⟨u, hu, hname, htoken⟩ := (r.covers fullName t.token).mp hmem
    rw [eq_of_token_eq hu ht htoken] at hname
    refine ⟨ht, hname, fun v hv hv' => hleast _ ?_⟩
    exact (r.covers fullName v.token).mpr ⟨v, hv, hv', rfl⟩
  · rintro ⟨ht, hname, hleast⟩
    refine ⟨t.token, List.min?_eq_some_iff.mpr ⟨?_, fun token htoken => ?_⟩,
      get?_eq_some_iff.mpr ⟨ht, rfl⟩⟩
    · exact (r.covers fullName t.token).mpr ⟨t, ht, hname, rfl⟩
    · obtain ⟨u, hu, hname', rfl⟩ := (r.covers fullName token).mp htoken
      exact hleast u hu hname'

theorem findByName?_eq_none_iff {r : Registry} {fullName : String} :
    r.findByName? fullName = none ↔ ∀ u ∈ r.types, u.fullName ≠ fullName := by
  unfold findByName?
  constructor
  · intro h u hu hname
    have hmem := (r.covers fullName u.token).mpr ⟨u, hu, hname, rfl⟩
    cases hmin : (r.names.tokens fullName).min? with
    | none =>
      rw [List.min?_eq_none_iff.mp hmin] at hmem
      cases hmem
    | some token =>
      -- the least token under the name is that of a type
      obtain ⟨v, hv, -, rfl⟩ := (r.covers fullName token).mp (List.min?_eq_some_iff.mp hmin).1
      rw [hmin, Option.bind_some, get?_eq_none_iff] at h
      exact h v hv rfl
  · intro h
    have hnil : r.names.tokens fullName = [] := List.eq_nil_iff_forall_not_mem.mpr fun token hmem => by
      obtain ⟨u, hu, hname, -⟩ := (r.covers fullName token).mp hmem
      exact h u hu hname
    rw [hnil]
    rfl

end Registry

end ModuleAudit
