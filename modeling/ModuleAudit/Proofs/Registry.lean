import ModuleAudit.Registry

/-!
# Histories of a registry

Types are offered to a new registry one after the other. Some are accepted, and the others leave no
trace. What the registry answers is said here by the accepted types alone, in whatever order they came.

## Main definitions

* `Registry.offer`, `Registry.offerAll`: a registry after one type, or many, were offered to it.
* `Registry.accepted`: the types that a new registry accepts of those it is offered.

## Main statements

* `Registry.perm_types_offerAll`: a registry holds exactly the accepted types.
* `Registry.offerAll_answers`: which types are accepted, and what the registry answers about them.
-/

namespace ModuleAudit.Registry

/-- The registry after a type was offered to it. -/
def offer (r : Registry) (t : TypeDef) : Registry :=
  match r.insert t with
  | .ok r' => r'
  | .error _ => r

def offerAll (history : List TypeDef) : Registry := history.foldl offer empty

/-- The types that a registry accepts of those it is offered, oldest first. -/
def acceptedFrom (r : Registry) : List TypeDef → List TypeDef
  | [] => []
  | t :: rest =>
    match r.insert t with
    | .ok r' => t :: r'.acceptedFrom rest
    | .error _ => r.acceptedFrom rest

def accepted (history : List TypeDef) : List TypeDef := empty.acceptedFrom history

variable {r r' : Registry} {t : TypeDef} {e : MetadataError}

theorem offer_of_ok (h : r.insert t = .ok r') : r.offer t = r' := by rw [offer, h]

theorem offer_of_error (h : r.insert t = .error e) : r.offer t = r := by rw [offer, h]

theorem offerAll_concat (history : List TypeDef) (t : TypeDef) :
    offerAll (history ++ [t]) = (offerAll history).offer t := by
  unfold offerAll
  rw [List.foldl_append]
  rfl

/-- What is registered from here on comes on top of what is registered already. -/
theorem perm_types_foldl_offer (r : Registry) (history : List TypeDef) :
    (history.foldl offer r).types.Perm (r.types ++ r.acceptedFrom history) := by
  induction history generalizing r with
  | nil =>
    rw [acceptedFrom, List.append_nil]
    exact .refl _
  | cons t rest ih =>
    rw [List.foldl_cons, acceptedFrom]
    cases h : r.insert t with
    | error e =>
      rw [offer_of_error h]
      exact ih r
    | ok r' =>
      obtain ⟨-, -, htypes, -⟩ := insert_eq_ok_iff.mp h
      rw [offer_of_ok h]
      refine (ih r').trans ?_
      rw [htypes]
      exact ((perm_insertSorted t r.types).append_right _).trans List.perm_middle.symm

/-- A registry holds exactly the accepted types. -/
theorem perm_types_offerAll (history : List TypeDef) :
    (offerAll history).types.Perm (accepted history) :=
  perm_types_foldl_offer empty history

theorem mem_accepted_iff {history : List TypeDef} :
    t ∈ (offerAll history).types ↔ t ∈ accepted history := (perm_types_offerAll history).mem_iff

/-- A type is accepted exactly if its token names a row of the table of defined types that no accepted
type has; a type that is not accepted changes nothing. Every token leads to the accepted type that
carries it, and every full name to the one with the least token among those that carry it; the types
in order are the accepted ones by their tokens. -/
theorem offerAll_answers (history : List TypeDef) :
    (∀ t, (∃ r, (offerAll history).insert t = .ok r) ↔ t.token.table = Table.typeDef ∧
      t.token.row ≠ 0 ∧ ∀ u ∈ accepted history, u.token ≠ t.token) ∧
    (∀ t e, (offerAll history).insert t = .error e →
      offerAll (history ++ [t]) = offerAll history) ∧
    (∀ token t, (offerAll history).get? token = some t ↔ t ∈ accepted history ∧ t.token = token) ∧
    ((offerAll history).types.Perm (accepted history) ∧
      (offerAll history).types.Pairwise (fun a b => a.token < b.token) ∧
      (offerAll history).types.length = (accepted history).length) ∧
    (∀ fullName t, (offerAll history).findByName? fullName = some t ↔
      t ∈ accepted history ∧ t.fullName = fullName ∧
        ∀ u ∈ accepted history, u.fullName = fullName → t.token ≤ u.token) ∧
    ∀ fullName, (offerAll history).findByName? fullName = none ↔
      ∀ u ∈ accepted history, u.fullName ≠ fullName := by
  have hperm := perm_types_offerAll history
  simp only [← mem_accepted_iff]
  refine ⟨fun t => ?_, fun t e h => ?_, fun token t => get?_eq_some_iff,
    ⟨hperm, (offerAll history).sorted, hperm.length_eq⟩, fun fullName t => findByName?_eq_some_iff,
    fun fullName => findByName?_eq_none_iff⟩
  · rw [exists_insert_eq_ok_iff, get?_eq_none_iff, ← and_assoc]
    simp [Token.isDefinition]
  · rw [offerAll_concat, offer_of_error h]

/-- One full name, cut in two ways: the least token decides, whichever type came first. -/
example : ((offerAll [{ TypeDef.ofClass ⟨"A", "B.C"⟩ with token := .typeDef 2 },
    { TypeDef.ofClass ⟨"A.B", "C"⟩ with token := .typeDef 1 }]).findByName? "A.B.C").map (·.token) =
      some (.typeDef 1) := by decide

end ModuleAudit.Registry
