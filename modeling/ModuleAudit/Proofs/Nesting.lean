import Mathlib.Logic.Relation
import ModuleAudit.Nesting
import ModuleAudit.Proofs.Walk

/-!
# Generated types

A type counts as generated if it is, or if any type around it is. Whether types enclose each other in
a circle makes no difference: a walk outwards that comes back to a token has passed all of them.

## Main definitions

* `Within`: a type is another one, or nested in it at any depth.

## Main statements

* `Registry.isGenerated_iff`, `World.isGenerated_iff`: a type is generated exactly if it lies within a
  type that shows it.
-/

namespace ModuleAudit

/-- `t` is `u` or nested in it at any depth, where `get?` finds the types that tokens name. -/
def Within (get? : Token → Option TypeDef) (t u : TypeDef) : Prop :=
  Relation.ReflTransGen (fun t u => t.enclosing.bind get? = some u) t u

namespace Registry

variable {r : Registry} {t u : TypeDef} {n : Nat}

theorem nestingStep_eq_answer_true_iff :
    r.nestingStep t = .answer true ↔ t.isSelfGenerated = true := by
  unfold nestingStep
  by_cases h : t.isSelfGenerated = true
  · simp [h]
  · simp only [h]
    cases r.enclosing? t <;> simp

theorem nestingStep_eq_move (h : t.isSelfGenerated ≠ true) (hu : r.enclosing? t = some u) :
    r.nestingStep t = .move u := by
  rw [nestingStep, if_neg h, hu]

theorem within_of_moves (h : r.nestingWalk.Moves n t u) : Within r.get? t u := by
  induction h with
  | zero => exact .refl
  | step hstep _ ih => exact .head (enclosing?_of_nestingStep hstep) ih

/-- Within a type that shows it, the walk outwards meets one that shows it: this type or another one
before it. -/
theorem exists_moves_of_within (h : Within r.get? t u) (hu : u.isSelfGenerated = true) :
    ∃ n v, r.nestingWalk.Moves n t v ∧ v.isSelfGenerated = true := by
  -- from the outermost type inwards: a type that shows it stops the walk, any other one goes on
  induction h using Relation.ReflTransGen.head_induction_on with
  | refl => exact ⟨0, u, .zero u, hu⟩
  | @head t t' hstep _ ih =>
    by_cases ht : t.isSelfGenerated = true
    · exact ⟨0, t, .zero t, ht⟩
    · obtain ⟨n, v, hmoves, hv⟩ := ih
      exact ⟨n + 1, v, .step (nestingStep_eq_move ht hstep) hmoves, hv⟩

theorem faithful_nestingWalk (h : r.get? t.token = none ∨ r.get? t.token = some t) :
    r.nestingWalk.Faithful t := by
  refine Walk.faithful_of_lookup r.get? (fun u v hstep => ?_) h
  obtain ⟨token, -, hget⟩ := Option.bind_eq_some_iff.mp (enclosing?_of_nestingStep hstep)
  exact get?_eq_some_iff.mpr ⟨(get?_eq_some_iff.mp hget).1, rfl⟩

theorem isGenerated_iff (h : r.get? t.token = none ∨ r.get? t.token = some t) :
    r.isGenerated t = true ↔ ∃ u, Within r.get? t u ∧ u.isSelfGenerated = true := by
  have hrun : r.isGenerated t = true ↔ r.nestingWalk.run t = .answered true := by
    unfold isGenerated
    cases r.nestingWalk.run t <;> simp
  rw [hrun, Walk.run_eq_answered_iff (faithful_nestingWalk h)]
  constructor
  · rintro ⟨n, u, hmoves, hstep⟩
    exact ⟨u, within_of_moves hmoves, nestingStep_eq_answer_true_iff.mp hstep⟩
  · rintro ⟨u, hwithin, hu⟩
    obtain ⟨n, v, hmoves, hv⟩ := exists_moves_of_within hwithin hu
    exact ⟨n, v, hmoves, nestingStep_eq_answer_true_iff.mpr hv⟩

end Registry

theorem World.isGenerated_iff {w : World} {home : RegistryId} {t : TypeDef}
    (h : w.get? home t.token = none ∨ w.get? home t.token = some t) :
    w.isGenerated home t = true ↔ ∃ u, Within (w.get? home) t u ∧ u.isSelfGenerated = true := by
  have hget : w.get? home = ((w.registry? home).getD .empty).get? := by
    funext token
    unfold World.get?
    cases w.registry? home <;> rfl
  rw [hget] at h ⊢
  exact Registry.isGenerated_iff h

end ModuleAudit
