/-!
# Walks that stop at the first repetition

A walk goes from state to state until a step answers it. States are told apart by a key; when a step
leads to a key that was seen before, the walk stops there, since it would go round for ever. Every
key that a step can lead to is among finitely many marks, so that each step without a repetition
uses up a mark and the walk ends, whatever the graph of its states looks like.

## Main definitions

* `Step`: what one step does, answer or move.
* `Walk`: steps, keys and marks.
* `Walk.run`: the walk from a state, until it is answered or comes back to a key.
* `Walk.Moves`: so many moves lead from one state to another, whether or not a key repeats.

## Main statements

* `Walk.runFrom_of_answer`, `runFrom_of_repeat`, `runFrom_of_move`: a walk unfolded by one step.
-/

namespace ModuleAudit

inductive Step (σ α : Type) where
  | answer (a : α)
  | move (s : σ)
deriving DecidableEq, Repr

/-- How a walk ends: with an answer, or in a state whose key it had met before. -/
inductive Ending (σ α : Type) where
  | answered (a : α)
  | repeated (s : σ)
deriving DecidableEq, Repr

/-- Steps between states, told apart by keys of which the steps reach finitely many. -/
structure Walk (σ κ α : Type) where
  step : σ → Step σ α
  key : σ → κ
  marks : List κ
  key_mem_marks : ∀ s t, step s = .move t → key t ∈ marks

namespace Walk

variable {σ κ α : Type} [DecidableEq κ]

def unseen (w : Walk σ κ α) (seen : List κ) : List κ := w.marks.filter (· ∉ seen)

theorem length_filter_not_mem_cons_lt {marks seen : List κ} {k : κ}
    (hmark : k ∈ marks) (hnew : k ∉ seen) :
    (marks.filter (· ∉ k :: seen)).length < (marks.filter (· ∉ seen)).length := by
  have hsplit : marks.filter (· ∉ k :: seen) = (marks.filter (· ∉ seen)).filter (· ≠ k) := by
    rw [List.filter_filter]
    refine List.filter_congr fun x _ => ?_
    by_cases hx : x = k <;> simp [hx]
  rw [hsplit, ← List.countP_eq_length_filter]
  refine Nat.lt_of_le_of_ne List.countP_le_length fun heq => ?_
  have := List.countP_eq_length.mp heq k (List.mem_filter.mpr ⟨hmark, by simpa using hnew⟩)
  simp at this

/-- The walk from `s`, where `seen` holds the keys of the states up to `s`. -/
def runFrom (w : Walk σ κ α) (seen : List κ) (s : σ) : Ending σ α :=
  match hstep : w.step s with
  | .answer a => .answered a
  | .move t =>
    if hseen : w.key t ∈ seen then .repeated t
    else
      have : (w.unseen (w.key t :: seen)).length < (w.unseen seen).length :=
        length_filter_not_mem_cons_lt (w.key_mem_marks s t hstep) hseen
      w.runFrom (w.key t :: seen) t
termination_by (w.unseen seen).length

def run (w : Walk σ κ α) (s : σ) : Ending σ α := w.runFrom [w.key s] s

theorem runFrom_of_answer {w : Walk σ κ α} {seen : List κ} {s : σ} {a : α}
    (h : w.step s = .answer a) : w.runFrom seen s = .answered a := by
  rw [runFrom]
  split <;> simp_all

theorem runFrom_of_repeat {w : Walk σ κ α} {seen : List κ} {s t : σ}
    (h : w.step s = .move t) (hseen : w.key t ∈ seen) : w.runFrom seen s = .repeated t := by
  rw [runFrom]
  split <;> simp_all

theorem runFrom_of_move {w : Walk σ κ α} {seen : List κ} {s t : σ}
    (h : w.step s = .move t) (hnew : w.key t ∉ seen) :
    w.runFrom seen s = w.runFrom (w.key t :: seen) t := by
  rw [runFrom]
  split <;> simp_all

/-- `w.Moves n s t`: exactly `n` moves lead from `s` to `t`, whether or not a key repeats. -/
inductive Moves {σ κ α : Type} (w : Walk σ κ α) : Nat → σ → σ → Prop where
  | zero (s : σ) : Moves w 0 s s
  | step {n : Nat} {s t u : σ} (hstep : w.step s = .move t) (hrest : Moves w n t u) :
      Moves w (n + 1) s u

omit [DecidableEq κ] in
/-- Moves are determined: their number and the state that they start from fix where they end. -/
theorem Moves.right_unique {w : Walk σ κ α} {n : Nat} {s t u : σ} (ht : w.Moves n s t)
    (hu : w.Moves n s u) : t = u := by
  induction ht with
  | zero => cases hu; rfl
  | step hstep _ ih =>
    cases hu with
    | step hstep' hrest' =>
      have heq : Step.move _ = Step.move _ := hstep.symm.trans hstep'
      cases heq
      exact ih hrest'

end Walk

end ModuleAudit
