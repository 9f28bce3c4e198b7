import ModuleAudit.Proofs.Nesting
import ModuleAudit.Proofs.Termination

/-!
# The search outwards

Whether a type lies within a generated one is searched for from type to enclosing type, and the search
is given up at a token that was met before. By then every type around the first one has been looked at:
each token that was met is that of a type which does not show that it is generated, and from the type
that is met again the way only leads through those. So the search finds exactly what there is, however
the types of a registry enclose each other.

## Main definitions

* `Registry.Around`: a type is around another one, at some depth.
* `Registry.Searching`: what the search knows between two turns.

## Main statements

* `Registry.searching_of_turns`: every type that was met has been looked at.
* `Registry.isSelfGenerated_eq_false_of_again`: nothing is missed where a token is met again.
* `Registry.isGenerated_search`: the search ends, and finds exactly what there is.
-/

namespace ModuleAudit

namespace Registry

open Walk

variable {r : Registry} {t u : TypeDef} {l l' : Loop TypeDef Token}

/-- `u` is around `t`: tokens of enclosing types lead there from `t`, one at least. -/
def Around (r : Registry) (t u : TypeDef) : Prop :=
  Relation.TransGen (fun t u => ∃ token, t.enclosing = some token ∧ r.get? token = some u) t u

theorem within_iff : Within r.get? t u ↔ u = t ∨ r.Around t u := by
  have hrel : (fun t u : TypeDef => t.enclosing.bind r.get? = some u) =
      fun t u => ∃ token, t.enclosing = some token ∧ r.get? token = some u := by
    funext t u
    exact propext Option.bind_eq_some_iff
  rw [Within, Relation.reflTransGen_iff_eq_or_transGen, hrel, Around]

theorem exists_within_iff : (∃ u, Within r.get? t u ∧ u.isSelfGenerated = true) ↔
    t.isSelfGenerated = true ∨ ∃ u, r.Around t u ∧ u.isSelfGenerated = true := by
  simp only [within_iff, or_and_right, exists_or, exists_eq_left]

theorem isSelfGenerated_of_nestingStep (h : r.nestingStep t = .move u) :
    t.isSelfGenerated = false := by
  rw [nestingStep] at h
  split at h
  · cases h
  · next hself => exact Bool.eq_false_iff.mpr hself

/-- Between two turns, the search from `t` has come to a type around it, or to `t` itself, and each
token that it met on the way is that of such a type too, which does not show that it is generated. -/
structure Searching (r : Registry) (t : TypeDef) (l : Loop TypeDef Token) : Prop where
  state : Within r.get? t l.state
  passed : ∀ k ∈ l.passed, ∃ u, Within r.get? t u ∧ u.token = k ∧ u.isSelfGenerated = false

theorem Searching.turn (h : r.Searching t l) (hturn : r.nestingWalk.Turn l l') :
    r.Searching t l' := by
  cases hturn with
  | @move passed s v fresh hstep =>
    refine ⟨h.state.tail (enclosing?_of_nestingStep hstep), ?_⟩
    exact List.forall_mem_cons.mpr
      ⟨⟨s, h.state, rfl, isSelfGenerated_of_nestingStep hstep⟩, h.passed⟩

theorem searching_of_turns (h : Relation.ReflTransGen r.nestingWalk.Turn (.start t) l) :
    r.Searching t l := by
  induction h with
  | refl => exact ⟨.refl, nofun⟩
  | tail _ hturn ih => exact ih.turn hturn

/-- Where a token is met again, neither the first type nor one around it is generated. -/
theorem isSelfGenerated_eq_false_of_again (ht : r.get? t.token = none ∨ r.get? t.token = some t)
    (h : Relation.ReflTransGen r.nestingWalk.Turn (.start t) l) (hagain : l.state.token ∈ l.passed)
    (hu : Within r.get? t u) : u.isSelfGenerated = false := by
  have hleaves : r.nestingWalk.Leaves l (.repeated l.state) := .repeated hagain
  have hrun : r.nestingWalk.run t = .repeated l.state :=
    (outcome_of_turns h).symm.trans hleaves.outcome_eq
  have hfalse : r.isGenerated t = false := by
    rw [isGenerated, hrun]
  rw [Bool.eq_false_iff, Ne, isGenerated_iff ht] at hfalse
  exact Bool.eq_false_iff.mpr fun hself => hfalse ⟨u, hu, hself⟩

/-- The search is left with the answer of the last step, or with a no at a token that was met before. -/
theorem left_of_leaves (h : r.nestingWalk.Leaves l (r.nestingWalk.run t)) :
    l.state.token ∉ l.passed ∧ r.nestingStep l.state = .answer (r.isGenerated t) ∨
      l.state.token ∈ l.passed ∧ r.isGenerated t = false := by
  unfold isGenerated
  generalize r.nestingWalk.run t = e at h ⊢
  cases h with
  | repeated again => exact .inr ⟨again, rfl⟩
  | answered fresh hstep => exact .inl ⟨fresh, hstep⟩

theorem length_passed_le_of_turns (h : Relation.ReflTransGen r.nestingWalk.Turn (.start t) l) :
    l.passed.length ≤ r.types.length + 1 := by
  rcases eq_start_or_underWay h with rfl | hway
  · exact Nat.zero_le _
  · have hmarks : r.nestingWalk.marks.length = r.types.length := List.length_map _
    rw [← hmarks]
    exact hway.length_passed_le

/-- A type counts as generated exactly if it shows it or a type around it does. The search for one ends
on every registry, after as many turns as there are types at most: its turns are well founded, and it is
left either with the answer of a step or at a token that was met before. Every token that it has met by
then is that of a type that was looked at, and where a token is met again, no type is missed. -/
theorem isGenerated_search (ht : r.get? t.token = none ∨ r.get? t.token = some t) :
    (r.isGenerated t = true ↔
      t.isSelfGenerated = true ∨ ∃ u, r.Around t u ∧ u.isSelfGenerated = true) ∧
    (WellFounded fun after before => r.nestingWalk.Turn before after) ∧
    (∃ l, Relation.ReflTransGen r.nestingWalk.Turn (.start t) l ∧
      l.passed.length ≤ r.types.length + 1 ∧
      (l.state.token ∉ l.passed ∧ r.nestingStep l.state = .answer (r.isGenerated t) ∨
        l.state.token ∈ l.passed ∧ r.isGenerated t = false)) ∧
    ∀ l, Relation.ReflTransGen r.nestingWalk.Turn (.start t) l → r.Searching t l ∧
      (l.state.token ∈ l.passed → t.isSelfGenerated = false ∧
        ∀ u, r.Around t u → u.isSelfGenerated = false) := by
  refine ⟨(isGenerated_iff ht).trans exists_within_iff, wellFounded_turn r.nestingWalk, ?_,
    fun l h => ⟨searching_of_turns h, fun hagain => ?_⟩⟩
  · obtain ⟨l, hturns, hleaves⟩ := exists_leaves_of_run r.nestingWalk t
    exact ⟨l, hturns, length_passed_le_of_turns hturns, left_of_leaves hleaves⟩
  · have hwithin := fun u => isSelfGenerated_eq_false_of_again (u := u) ht h hagain
    exact ⟨hwithin t .refl, fun u hu => hwithin u (within_iff.mpr (.inr hu))⟩

def nestedIn (row around : Nat) (name : String) : TypeDef :=
  { TypeDef.ofClass ⟨"Acme", name⟩ with token := .typeDef row, enclosing := some (.typeDef around) }

/-- A type in a ring of two others, and one in a closure that is not nested itself. -/
def rings : Registry where
  types := [nestedIn 1 2 "Inner", nestedIn 2 3 "Left", nestedIn 3 2 "Right",
    { TypeDef.ofClass ⟨"", "<>c"⟩ with token := .typeDef 4 }, nestedIn 5 4 "Body"]
  links := []
  sorted := by decide
  valid := by decide

theorem isGenerated_search_rings :
    (rings.get? (.typeDef 1) = some (nestedIn 1 2 "Inner") ∧
      rings.isGenerated (nestedIn 1 2 "Inner") = false ∧
      ∀ u, rings.Around (nestedIn 1 2 "Inner") u → u.isSelfGenerated = false) ∧
    rings.get? (.typeDef 9) = none ∧ rings.isGenerated (nestedIn 9 5 "Stray") = true := by
  refine ⟨⟨by decide, ?_⟩, by decide, ?_⟩
  · obtain ⟨hiff, -, -, hmet⟩ := isGenerated_search (r := rings) (t := nestedIn 1 2 "Inner")
      (.inr (by decide))
    -- three turns lead through the ring and back to the first type of it
    have hturns : Relation.ReflTransGen rings.nestingWalk.Turn (.start (nestedIn 1 2 "Inner"))
        ⟨[.typeDef 3, .typeDef 2, .typeDef 1], nestedIn 2 3 "Left"⟩ := by
      refine .tail (.tail (.tail .refl (.move (t := nestedIn 2 3 "Left") ?_ ?_))
        (.move (t := nestedIn 3 2 "Right") ?_ ?_)) (.move ?_ ?_) <;> decide
    obtain ⟨hself, haround⟩ := (hmet _ hturns).2 (by decide)
    refine ⟨Bool.eq_false_iff.mpr fun htrue => ?_, haround⟩
    rcases hiff.mp htrue with h | ⟨u, hu, h⟩
    · rw [hself] at h
      cases h
    · rw [haround u hu] at h
      cases h
  · obtain ⟨hiff, -⟩ := isGenerated_search (r := rings) (t := nestedIn 9 5 "Stray") (.inl (by decide))
    refine hiff.mpr (.inr ⟨{ TypeDef.ofClass ⟨"", "<>c"⟩ with token := .typeDef 4 }, ?_, by decide⟩)
    exact .head (b := nestedIn 5 4 "Body") ⟨.typeDef 5, rfl, by decide⟩
      (.single ⟨.typeDef 4, rfl, by decide⟩)

end Registry

end ModuleAudit
