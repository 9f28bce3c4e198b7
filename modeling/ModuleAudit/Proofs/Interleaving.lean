import Mathlib.Data.List.Induction
import Mathlib.Data.List.Perm.Basic

/-!
# Interleavings

Lists that grow at the same time, and the one list in which all that is added to them is written down as
it comes.

## Main definitions

* `Interleaves`: a list that holds the elements of some lists, those of each list in their order.

## Main statements

* `Interleaves.perm_flatten`: an interleaving holds just the elements of the lists.
* `interleaves_singleton`: a single list can be interleaved in one way only.
* `Interleaves.append_map`: what is left of each list may come at the end, list by list.
* `Interleaves.exists_of_filter`: what is left out of each list can be put in again.
-/

namespace ModuleAudit

/-- `Interleaves parts whole`: `whole` is what comes about if elements are added to `parts`, each at the
end of one of them, and written down one after the other. -/
inductive Interleaves {α : Type} : List (List α) → List α → Prop
  | nil {parts : List (List α)} (h : ∀ l ∈ parts, l = []) : Interleaves parts []
  | snoc {before after : List (List α)} {l whole : List α}
      (h : Interleaves (before ++ l :: after) whole) (x : α) :
      Interleaves (before ++ (l ++ [x]) :: after) (whole ++ [x])

variable {α β : Type} {parts before after : List (List α)} {l whole : List α}

theorem Interleaves.perm_flatten (h : Interleaves parts whole) : whole.Perm parts.flatten := by
  induction h with
  | nil hparts => rw [List.flatten_eq_nil_iff.mpr hparts]
  | @snoc before after l whole h x ih =>
    have hswap : ([x] ++ after.flatten).Perm (after.flatten ++ [x]) := List.perm_append_comm
    simp only [List.flatten_append, List.flatten_cons, List.append_assoc] at ih ⊢
    refine (ih.append_right [x]).trans ?_
    simp only [List.append_assoc]
    exact (hswap.symm.append_left l).append_left before.flatten

/-- A single list can be interleaved in one way only. -/
theorem interleaves_singleton : Interleaves [l] whole ↔ whole = l := by
  constructor
  · intro h
    generalize hparts : [l] = parts at h
    induction h generalizing l with
    | nil hnil => exact (hnil l (hparts ▸ List.mem_singleton_self l)).symm
    | @snoc before after l' whole h x ih =>
      obtain ⟨rfl, rfl, rfl⟩ : before = [] ∧ l' ++ [x] = l ∧ after = [] := by
        cases before with
        | nil => simpa [eq_comm] using hparts
        | cons => simp at hparts
      rw [ih rfl]
  · rintro rfl
    induction whole using List.reverseRecOn with
    | nil => exact .nil fun l hl => List.mem_singleton.mp hl
    | append_singleton whole x ih =>
      have hsnoc : Interleaves ([] ++ (whole ++ [x]) :: []) (whole ++ [x]) := .snoc ih x
      exact hsnoc

/-- One of the lists may grow by many elements in a row. -/
theorem Interleaves.append (h : Interleaves (before ++ l :: after) whole) (more : List α) :
    Interleaves (before ++ (l ++ more) :: after) (whole ++ more) := by
  induction more generalizing l whole with
  | nil => rwa [List.append_nil, List.append_nil]
  | cons x more ih => simpa using ih (h.snoc x)

/-- What is left of each list may come at the end, list by list. -/
theorem Interleaves.append_map {xs : List β} {f : β → List α} (g : β → List α)
    (h : Interleaves (before ++ xs.map f) whole) :
    Interleaves (before ++ xs.map fun x => f x ++ g x) (whole ++ xs.flatMap g) := by
  induction xs generalizing before whole with
  | nil => simpa using h
  | cons x xs ih =>
    have hfirst : Interleaves ((before ++ [f x ++ g x]) ++ xs.map f) (whole ++ g x) := by
      rw [List.append_assoc]
      exact Interleaves.append h (g x)
    simpa using ih hfirst

/-- Lists may be written down one after the other. -/
theorem interleaves_flatten (parts : List (List α)) : Interleaves parts parts.flatten := by
  have hnil : Interleaves ([] ++ parts.map fun _ => []) ([] : List α) := .nil (by simp)
  simpa using hnil.append_map id

/-- An interleaving of filtered lists is what the filter leaves of an interleaving of the lists. -/
theorem Interleaves.exists_of_filter {p : α → Bool} {kept : List α}
    (h : Interleaves (parts.map (List.filter p)) kept) :
    ∃ whole, Interleaves parts whole ∧ whole.filter p = kept := by
  generalize hfiltered : parts.map (List.filter p) = filtered at h
  induction h generalizing parts with
  | nil hnil =>
    refine ⟨parts.flatten, interleaves_flatten parts, ?_⟩
    rw [List.filter_flatten, hfiltered]
    exact List.flatten_eq_nil_iff.mpr hnil
  | @snoc before after l kept h x ih =>
    -- the list that grew last ends with what its filter leaves the new element of
    obtain ⟨before', rest, rfl, hbefore, hrest⟩ := List.map_eq_append_iff.mp hfiltered
    obtain ⟨l', after', rfl, hl, hafter⟩ := List.map_eq_cons_iff.mp hrest
    obtain ⟨first, last, rfl, hfirst, hlast⟩ := List.filter_eq_append_iff.mp hl
    have hparts : (before' ++ first :: after').map (List.filter p) = before ++ l :: after := by
      simp [hbefore, hfirst, hafter]
    obtain ⟨whole, hwhole, hkept⟩ := ih hparts
    exact ⟨whole ++ last, hwhole.append last, by rw [List.filter_append, hkept, hlast]⟩

end ModuleAudit
