import Mathlib.Data.Finset.Filter
import Mathlib.Data.Finset.Dedup
import Mathlib.Data.List.Perm.Subperm
import Mathlib.Logic.Relation
import ModuleAudit.Proofs.BaseChain

/-!
# Termination of the way up

A walk is a loop: it checks that the key of its state is new, takes a step, and starts over with the
state that the step leads to. The turns of the loop are said here without the recursion that carries
them out, from any state of the loop and whatever has passed the check before. No turn can be made
for ever, since only one key, that of the first state, need not be among the marks of the walk.

## Main definitions

* `Walk.Loop`: a walk between two turns.
* `Walk.Turn`, `Walk.Leaves`: one turn of the loop, and the ways in which the loop is left.
* `BaseChain.unvisited`: the registered types that have not passed the check.

## Main statements

* `Walk.wellFounded_turn`: no loop turns for ever.
* `Walk.exists_leaves_of_run`: a loop ends as the recursion says.
* `World.classify_terminates`: the loop that classifies a type ends, whatever the world looks like.
-/

namespace ModuleAudit

namespace Walk

variable {σ κ α : Type}

/-- A walk between two turns: the keys that have passed the check, last one first, and the state whose
key is checked next. -/
structure Loop (σ κ : Type) where
  passed : List κ
  state : σ

def Loop.start (s : σ) : Loop σ κ := ⟨[], s⟩

/-- One turn of the loop: the key of the state passes the check, and the step moves on. -/
inductive Turn (w : Walk σ κ α) : Loop σ κ → Loop σ κ → Prop
  | move {passed : List κ} {s t : σ} (fresh : w.key s ∉ passed) (hstep : w.step s = .move t) :
    Turn w ⟨passed, s⟩ ⟨w.key s :: passed, t⟩

/-- The loop is left: by a key that does not pass the check, or by an answer. -/
inductive Leaves (w : Walk σ κ α) : Loop σ κ → Ending σ α → Prop
  | repeated {passed : List κ} {s : σ} (again : w.key s ∈ passed) :
    Leaves w ⟨passed, s⟩ (.repeated s)
  | answered {passed : List κ} {s : σ} {a : α} (fresh : w.key s ∉ passed)
      (hstep : w.step s = .answer a) : Leaves w ⟨passed, s⟩ (.answered a)

variable {w : Walk σ κ α} {l l' : Loop σ κ} {s : σ} {e : Ending σ α}

theorem turn_or_leaves (w : Walk σ κ α) (l : Loop σ κ) :
    (∃ l', w.Turn l l') ∨ ∃ e, w.Leaves l e := by
  obtain ⟨passed, s⟩ := l
  by_cases hkey : w.key s ∈ passed
  · exact .inr ⟨_, .repeated hkey⟩
  · cases hstep : w.step s with
    | answer a => exact .inr ⟨_, .answered hkey hstep⟩
    | move t => exact .inl ⟨_, .move hkey hstep⟩

/-! ### No loop turns for ever -/

section Termination

variable [DecidableEq κ]

/-- How many turns a loop can still make: one for each mark that has not passed the check, and one for
its state where that has no mark. -/
def turnsLeft (w : Walk σ κ α) (l : Loop σ κ) : Nat :=
  (w.unseen l.passed).length + if w.key l.state ∈ w.marks then 0 else 1

theorem Turn.turnsLeft_lt (h : w.Turn l l') : w.turnsLeft l' < w.turnsLeft l := by
  cases h with
  | @move passed s t fresh hstep =>
    have ht : w.key t ∈ w.marks := w.key_mem_marks s t hstep
    simp only [turnsLeft, if_pos ht, Nat.add_zero]
    by_cases hs : w.key s ∈ w.marks
    · rw [if_pos hs]
      exact length_filter_not_mem_cons_lt hs fresh
    · -- the first state alone may have no mark: its key uses up none of them
      rw [if_neg hs, Nat.lt_succ_iff]
      apply List.Sublist.length_le
      apply List.monotone_filter_right
      intro k
      simp

theorem wellFounded_turn (w : Walk σ κ α) :
    WellFounded fun after before => w.Turn before after :=
  Subrelation.wf (fun h => h.turnsLeft_lt) (measure w.turnsLeft).wf

theorem exists_leaves (w : Walk σ κ α) (l : Loop σ κ) :
    ∃ l' e, Relation.ReflTransGen w.Turn l l' ∧ w.Leaves l' e := by
  induction l using w.wellFounded_turn.induction with
  | _ l ih =>
    rcases w.turn_or_leaves l with ⟨next, hturn⟩ | ⟨e, hleaves⟩
    · obtain ⟨l', e, hturns, hleaves⟩ := ih next hturn
      exact ⟨l', e, .head hturn hturns, hleaves⟩
    · exact ⟨l, e, .refl, hleaves⟩

/-! ### The loop and the recursion -/

/-- What the recursion makes of a loop. -/
def outcome (w : Walk σ κ α) (l : Loop σ κ) : Ending σ α :=
  if w.key l.state ∈ l.passed then .repeated l.state
  else w.runFrom (w.key l.state :: l.passed) l.state

theorem outcome_start (w : Walk σ κ α) (s : σ) : w.outcome (.start s) = w.run s :=
  if_neg List.not_mem_nil

theorem Turn.outcome_eq (h : w.Turn l l') : w.outcome l' = w.outcome l := by
  cases h with
  | @move passed s t fresh hstep =>
    simp only [outcome, if_neg fresh]
    by_cases hkey : w.key t ∈ w.key s :: passed
    · rw [if_pos hkey, runFrom_of_repeat hstep hkey]
    · rw [if_neg hkey, runFrom_of_move hstep hkey]

theorem Leaves.outcome_eq (h : w.Leaves l e) : w.outcome l = e := by
  cases h with
  | repeated again => exact if_pos again
  | answered fresh hstep => exact (if_neg fresh).trans (runFrom_of_answer hstep)

theorem outcome_of_turns (h : Relation.ReflTransGen w.Turn (.start s) l) :
    w.outcome l = w.run s := by
  rw [← outcome_start]
  induction h with
  | refl => rfl
  | tail _ hturn ih => exact hturn.outcome_eq.trans ih

/-- The loop that starts from a state is left as the recursion says. -/
theorem exists_leaves_of_run (w : Walk σ κ α) (s : σ) :
    ∃ l, Relation.ReflTransGen w.Turn (.start s) l ∧ w.Leaves l (w.run s) := by
  obtain ⟨l, e, hturns, hleaves⟩ := w.exists_leaves (.start s)
  rw [← outcome_of_turns hturns, hleaves.outcome_eq]
  exact ⟨l, hturns, hleaves⟩

end Termination

/-! ### What has passed the check -/

/-- A loop that started from `s` and has made a turn: its keys are all different, the first of them is
that of `s`, and the others and the one to be checked next are those of states that steps lead to. -/
structure UnderWay (w : Walk σ κ α) (s : σ) (l : Loop σ κ) : Prop where
  nodup : l.passed.Nodup
  passed : ∃ later, l.passed = later ++ [w.key s] ∧
    ∀ k ∈ later, ∃ r t, w.step r = .move t ∧ w.key t = k
  state : ∃ r, w.step r = .move l.state

theorem UnderWay.turn (h : w.UnderWay s l) (hturn : w.Turn l l') : w.UnderWay s l' := by
  cases hturn with
  | @move passed r t fresh hstep =>
    obtain ⟨later, hlater, hmoved⟩ := h.passed
    obtain ⟨q, hq⟩ := h.state
    refine ⟨List.nodup_cons.mpr ⟨fresh, h.nodup⟩, ⟨w.key r :: later, ?_, ?_⟩, r, hstep⟩
    · exact congrArg (w.key r :: ·) hlater
    · exact List.forall_mem_cons.mpr ⟨⟨q, r, hq, rfl⟩, hmoved⟩

theorem eq_start_or_underWay (h : Relation.ReflTransGen w.Turn (.start s) l) :
    l = .start s ∨ w.UnderWay s l := by
  induction h with
  | refl => exact .inl rfl
  | tail _ hturn ih =>
    rcases ih with rfl | hway
    · cases hturn with
      | move fresh hstep => exact .inr ⟨List.nodup_singleton _, ⟨[], rfl, nofun⟩, s, hstep⟩
    · exact .inr (hway.turn hturn)

/-- All keys that have passed the check but the first one are marks, so there are not many of them. -/
theorem UnderWay.length_passed_le (h : w.UnderWay s l) : l.passed.length ≤ w.marks.length + 1 := by
  obtain ⟨later, hlater, hmoved⟩ := h.passed
  have hnodup : later.Nodup := (List.nodup_append.mp (hlater ▸ h.nodup)).1
  have hmarks : later ⊆ w.marks := by
    intro k hk
    obtain ⟨r, t, hstep, rfl⟩ := hmoved k hk
    exact w.key_mem_marks r t hstep
  have hle : later.length ≤ w.marks.length := (hnodup.subperm hmarks).length_le
  rw [hlater, List.length_append, List.length_singleton]
  exact Nat.succ_le_succ hle

end Walk

namespace BaseChain

open Walk

variable {w : World} {s : Stage} {l l' : Loop Stage (RegistryId × Token)}
  {k : RegistryId × Token} {passed : List (RegistryId × Token)}

theorem mem_marks_iff : k ∈ marks w ↔ ∃ t, w.get? k.1 k.2 = some t := by
  constructor
  · intro h
    obtain ⟨id, -, hk⟩ := List.mem_flatMap.mp h
    obtain ⟨t, ht, rfl⟩ := List.mem_map.mp hk
    exact ⟨t, World.get?_eq_some_iff.mpr ⟨ht, rfl⟩⟩
  · rintro ⟨t, h⟩
    obtain ⟨ht, htoken⟩ := World.get?_eq_some_iff.mp h
    rw [← Prod.mk.eta (p := k), ← htoken]
    exact mem_marks ht

theorem length_marks (w : World) :
    (marks w).length = (w.registries.flatMap (·.types)).length := by
  have htypes : (List.range w.registries.length).map (fun id => (w.types id).length) =
      w.registries.map (·.types.length) := by
    apply List.ext_getElem?
    intro id
    rw [List.getElem?_map, List.getElem?_map]
    cases h : w.registries[id]? with
    | none =>
      have hid : w.registries.length ≤ id := List.getElem?_eq_none_iff.mp h
      simp [hid]
    | some r =>
      obtain ⟨hid, -⟩ := List.getElem?_eq_some_iff.mp h
      simp [List.getElem?_range hid, World.types_eq_of_lookup h]
  simp only [marks, List.length_flatMap, List.length_map, htypes]

/-- The registered types, by registry and token, that have not passed the check. -/
def unvisited (w : World) (passed : List (RegistryId × Token)) : Finset (RegistryId × Token) :=
  (marks w).toFinset.filter (· ∉ passed)

theorem mem_unvisited_iff :
    k ∈ unvisited w passed ↔ (∃ t, w.get? k.1 k.2 = some t) ∧ k ∉ passed := by
  rw [unvisited, Finset.mem_filter, List.mem_toFinset, mem_marks_iff]

theorem unvisited_cons_ssubset (hget : ∃ t, w.get? k.1 k.2 = some t) (hk : k ∉ passed) :
    unvisited w (k :: passed) ⊂ unvisited w passed := by
  refine Finset.ssubset_iff_of_subset ?_ |>.mpr ⟨k, mem_unvisited_iff.mpr ⟨hget, hk⟩, ?_⟩
  · intro j hj
    obtain ⟨hget, hj⟩ := mem_unvisited_iff.mp hj
    exact mem_unvisited_iff.mpr ⟨hget, fun h => hj (List.mem_cons_of_mem k h)⟩
  · intro h
    exact (mem_unvisited_iff.mp h).2 List.mem_cons_self

theorem exists_get?_of_step {r q : Stage} (h : step w r = .move q) :
    ∃ t, w.get? q.home q.type.token = some t :=
  ⟨q.type, World.get?_eq_some_iff.mpr ⟨mem_types_of_step h, rfl⟩⟩

/-- Once a turn is made, all pairs that passed the check but the first one name registered types. -/
theorem exists_get?_of_underWay (h : (walk w).UnderWay s l) :
    ∃ later, l.passed = later ++ [s.key] ∧ ∀ k ∈ later, ∃ t, w.get? k.1 k.2 = some t := by
  obtain ⟨later, hlater, hmoved⟩ := h.passed
  refine ⟨later, hlater, fun k hk => ?_⟩
  obtain ⟨r, q, hstep, rfl⟩ := hmoved k hk
  exact exists_get?_of_step hstep

theorem length_passed_le (h : (walk w).UnderWay s l) :
    l.passed.length ≤ (w.registries.flatMap (·.types)).length + 1 := by
  rw [← length_marks]
  exact h.length_passed_le

theorem unvisited_ssubset_of_turn (h : (walk w).UnderWay s l) (hturn : (walk w).Turn l l') :
    unvisited w l'.passed ⊂ unvisited w l.passed := by
  obtain ⟨r, hr⟩ := h.state
  cases hturn with
  | move fresh _ => exact unvisited_cons_ssubset (exists_get?_of_step hr) fresh

end BaseChain

namespace World

open BaseChain Walk

/-- The loop that classifies a type ends, whatever the world looks like and whether or not the type is
registered anywhere: its turns are well founded, from any state of the loop. On the way no pair of a
registry and a token passes the check twice, and each pair behind the first one names a registered
type, so that every turn but the first leaves fewer registered types unvisited. The verdict is that of
the state at which the loop is left. -/
theorem classify_terminates (w : World) (home : RegistryId) (t : TypeDef) :
    (WellFounded fun after before => (walk w).Turn before after) ∧
    (∀ l, Relation.ReflTransGen (walk w).Turn (.start ⟨home, t⟩) l →
      l.passed.Nodup ∧
      l.passed.length ≤ (w.registries.flatMap (·.types)).length + 1 ∧
      (∀ k ∈ l.passed.dropLast, ∃ u, w.get? k.1 k.2 = some u) ∧
      ∀ l', (walk w).Turn l l' → l.passed ≠ [] →
        unvisited w l'.passed ⊂ unvisited w l.passed) ∧
    ∃ l, Relation.ReflTransGen (walk w).Turn (.start ⟨home, t⟩) l ∧
      (l.state.key ∉ l.passed ∧ step w l.state = .answer (w.classify home t) ∨
        l.state.key ∈ l.passed ∧
          w.classify home t = .unclassifiable (.cycle l.state.type.token)) := by
  refine ⟨wellFounded_turn (walk w), fun l hturns => ?_, ?_⟩
  · rcases eq_start_or_underWay hturns with rfl | hway
    · exact ⟨List.nodup_nil, Nat.zero_le _, nofun, fun _ _ h => absurd rfl h⟩
    · refine ⟨hway.nodup, length_passed_le hway, ?_, fun l' hturn _ =>
        unvisited_ssubset_of_turn hway hturn⟩
      obtain ⟨later, hlater, hget⟩ := exists_get?_of_underWay hway
      rwa [hlater, List.dropLast_concat]
  · obtain ⟨l, hturns, hleaves⟩ := exists_leaves_of_run (walk w) ⟨home, t⟩
    refine ⟨l, hturns, ?_⟩
    cases hrun : (walk w).run ⟨home, t⟩ with
    | answered c =>
      rw [classify_of_answered hrun]
      rw [hrun] at hleaves
      cases hleaves with
      | answered fresh hstep => exact .inl ⟨fresh, hstep⟩
    | repeated r =>
      rw [classify_of_repeated hrun]
      rw [hrun] at hleaves
      cases hleaves with
      | repeated again => exact .inr ⟨again, rfl⟩

end World

end ModuleAudit
