import ModuleAudit.TypeDef

/-!
# Indexes by full name

Which types carry a full name, in the order in which they came. Several types can share one: a name
with points in it may be cut into namespace and name at any of them.

## Main definitions

* `NameIndex`: for each full name the tokens of the types that carry it.
* `NameIndex.add`: the index with one more type.
* `NameIndex.Covers`: an index holds the tokens of a list of types, each under the full name of its type.
-/

namespace ModuleAudit

/-- Tokens by full name. Of two entries for a name the first one counts. -/
structure NameIndex where
  entries : List (String × List Token)
deriving DecidableEq, Repr

namespace NameIndex

def empty : NameIndex := ⟨[]⟩

def tokens (index : NameIndex) (name : String) : List Token := (index.entries.lookup name).getD []

/-- Puts a token behind those that are already under the name. -/
def add (index : NameIndex) (name : String) (token : Token) : NameIndex :=
  ⟨(name, index.tokens name ++ [token]) :: index.entries⟩

def ofTypes (types : List TypeDef) : NameIndex :=
  types.foldr (fun t index => index.add t.fullName t.token) empty

theorem tokens_add (index : NameIndex) (name : String) (token : Token) (other : String) :
    (index.add name token).tokens other =
      if other = name then index.tokens name ++ [token] else index.tokens other := by
  by_cases h : other = name
  · simp [add, tokens, h]
  · have hne : (other == name) = false := by simpa using h
    simp [add, tokens, List.lookup_cons, h, hne]

/-- A token is under a name exactly if a type with this token has this full name. -/
def Covers (index : NameIndex) (types : List TypeDef) : Prop :=
  ∀ name token, token ∈ index.tokens name ↔ ∃ t ∈ types, t.fullName = name ∧ t.token = token

theorem covers_empty : empty.Covers [] := by
  intro name token
  simp [empty, tokens]

theorem Covers.add {index : NameIndex} {types more : List TypeDef} {t : TypeDef}
    (h : index.Covers types) (hmore : ∀ u, u ∈ more ↔ u = t ∨ u ∈ types) :
    (index.add t.fullName t.token).Covers more := by
  intro name token
  have hsplit : (∃ u ∈ more, u.fullName = name ∧ u.token = token) ↔
      (t.fullName = name ∧ t.token = token) ∨ ∃ u ∈ types, u.fullName = name ∧ u.token = token := by
    simp [hmore]
  rw [hsplit, ← h name token, tokens_add]
  by_cases hname : name = t.fullName
  · subst hname
    rw [if_pos rfl, List.mem_append, List.mem_singleton, or_comm]
    simp [eq_comm]
  · rw [if_neg hname]
    simp [Ne.symm hname]

theorem covers_ofTypes (types : List TypeDef) : (ofTypes types).Covers types := by
  induction types with
  | nil => exact covers_empty
  | cons t rest ih => exact ih.add fun u => List.mem_cons

end NameIndex

end ModuleAudit
