import Mathlib.Order.Preorder.Finite
import ModuleAudit.Proofs.BaseChain

/-!
# What a cycle says about a chain of bases

A chain of bases that never ends comes back to one of its stages, since all stages but the first one
are registered types, and a chain that comes back goes round for ever. The walk along a chain tells
stages apart by registry and token. That is enough for registered types, yet a classification starts
from any type at all, and the token of that one may be registered for another type. A chain that
meets this other type is taken for a cycle there, even if it ends at the root.

## Main definitions

* `BaseChain.Endless`: the chain has a stage after any number of steps.
* `BaseChain.MeetsNamesake`: the chain comes to another type under the token that it starts from.
* `BaseChain.RoundFrom`: no stage decides, and the stage is the first one that is met again.

## Main statements

* `BaseChain.endless_iff`: exactly the chains that come back to a stage never end.
* `World.classify_cycle_iff`: when a cycle is answered, and when the answer is true.
-/

namespace ModuleAudit

namespace BaseChain

variable {w : World} {s r q : Stage} {n : Nat}

def Endless (w : World) (s : Stage) : Prop := ∀ n, ∃ r, stage? w s n = some r

/-- Short of a stage that decides, the chain comes to another type than the one that it starts from,
under the same token and in the same registry. -/
def MeetsNamesake (w : World) (s : Stage) : Prop :=
  ∃ n t, stage? w s n = some ⟨s.home, t⟩ ∧ t.token = s.type.token ∧ t ≠ s.type ∧
    ∀ m < n, ∀ q, stage? w s m = some q → ¬Decides w q

/-- No stage of the chain decides, and `r` is the first stage that it comes back to. -/
structure RoundFrom (w : World) (s r : Stage) : Prop where
  undecided : ∀ n q, stage? w s n = some q → ¬Decides w q
  returns : ∃ n, FirstReturn w s n r

/-! ### Endless chains -/

/-- No chain goes on beyond the root. -/
theorem ReachesRoot.not_endless (h : ReachesRoot w s) : ¬Endless w s := by
  obtain ⟨n, r, base, hstage, hbase, hroot, -⟩ := h
  intro hendless
  obtain ⟨q, hq⟩ := hendless (n + 1)
  rw [stage?, hstage] at hq
  obtain ⟨base', t, owner, hbase', hne, -, -⟩ := next?_eq_some_iff.mp hq
  rw [hbase] at hbase'
  cases hbase'
  exact hne hroot

/-- All stages but the first one are registered types. -/
theorem mem_types_of_stage? (h : stage? w s (n + 1) = some r) : r.type ∈ w.types r.home := by
  obtain ⟨q, -, hnext⟩ := Option.bind_eq_some_iff.mp h
  obtain ⟨base, t, owner, -, -, hresolve, rfl⟩ := next?_eq_some_iff.mp hnext
  exact World.mem_types_of_resolve hresolve

theorem eq_of_key_eq (hr : r.type ∈ w.types r.home) (hq : q.type ∈ w.types q.home)
    (hkey : r.key = q.key) : r = q := by
  have hnamed := registered?_key hr
  rw [hkey, registered?_key hq] at hnamed
  exact (Option.some.inj hnamed).symm

/-- A chain that comes back to a stage only has the stages before that. -/
theorem exists_stage?_eq_of_return (hreturn : stage? w s n = some r)
    (hearlier : ∃ m < n, stage? w s m = some r) (k : Nat) :
    ∃ j < n, stage? w s k = stage? w s j := by
  obtain ⟨m, hm, hstage⟩ := hearlier
  induction k with
  | zero => exact ⟨0, by omega, rfl⟩
  | succ k ih =>
    obtain ⟨j, hj, heq⟩ := ih
    have hnext : stage? w s (k + 1) = stage? w s (j + 1) := by
      rw [stage?, stage?, heq]
    by_cases hjn : j + 1 < n
    · exact ⟨j + 1, hjn, hnext⟩
    · -- the step that closes the circle
      obtain rfl : j + 1 = n := by omega
      exact ⟨m, hm, hnext.trans (hreturn.trans hstage.symm)⟩

theorem FirstReturn.endless (h : FirstReturn w s n r) : Endless w s := by
  intro k
  obtain ⟨j, hj, heq⟩ := exists_stage?_eq_of_return h.stage h.earlier k
  obtain ⟨q, hq⟩ := exists_stage?_of_le h.stage (Nat.le_of_lt hj)
  exact ⟨q, heq.trans hq⟩

/-- There are only finitely many registered types, so an endless chain comes back to one. -/
theorem Endless.exists_return (h : Endless w s) :
    ∃ n, ∃ m < n, ∃ r, stage? w s m = some r ∧ stage? w s n = some r := by
  choose stage hstage using h
  have hregistered : ∀ n, (stage (n + 1)).type ∈ w.types (stage (n + 1)).home :=
    fun n => mem_types_of_stage? (hstage (n + 1))
  obtain ⟨i, j, hij, hkey⟩ := Set.Finite.exists_lt_map_eq_of_forall_mem
    (f := fun n => (stage (n + 1)).key) (fun n => mem_marks (hregistered n))
    (List.finite_toSet (marks w))
  have heq := eq_of_key_eq (hregistered i) (hregistered j) hkey
  exact ⟨j + 1, i + 1, by omega, stage (i + 1), hstage (i + 1), heq ▸ hstage (j + 1)⟩

theorem endless_iff : Endless w s ↔ ∃ n r, FirstReturn w s n r := by
  classical
  constructor
  · intro h
    have hreturn := h.exists_return
    -- the first stage that has been met before
    obtain ⟨m, hm, r, hstage, hagain⟩ := Nat.find_spec hreturn
    refine ⟨Nat.find hreturn, r, hagain, ⟨m, hm, hstage⟩, fun i j q hij hj hi hj' => ?_⟩
    exact Nat.find_min hreturn hj ⟨i, hij, q, hi, hj'⟩
  · rintro ⟨n, r, h⟩
    exact h.endless

theorem FirstReturn.le {m : Nat} (h : FirstReturn w s n r) (h' : FirstReturn w s m q) : m ≤ n := by
  refine Nat.le_of_not_lt fun hlt => ?_
  obtain ⟨i, hi, hstage⟩ := h.earlier
  exact h'.distinct i n r hi hlt hstage h.stage

theorem FirstReturn.right_unique {m : Nat} (h : FirstReturn w s n r) (h' : FirstReturn w s m q) :
    r = q := by
  obtain rfl : n = m := Nat.le_antisymm (h'.le h) (h.le h')
  exact Option.some.inj (h.stage.symm.trans h'.stage)

/-! ### The walk along a chain -/

/-- The keys of a chain tell its stages apart exactly if it meets no namesake. -/
theorem faithful_walk_iff : (walk w).Faithful s ↔ ¬MeetsNamesake w s := by
  rw [Walk.faithful_iff_start (registered? w) registered?_of_step]
  constructor
  · rintro hstart ⟨n, t, hstage, htoken, hne, hbefore⟩
    have hkey : Stage.key ⟨s.home, t⟩ = s.key := Prod.ext rfl htoken
    have heq := hstart n ⟨s.home, t⟩ (moves_iff.mpr ⟨hstage, hbefore⟩) hkey
    exact hne (congrArg Stage.type heq)
  · rintro hnone n ⟨home, t⟩ hmoves hkey
    obtain ⟨rfl, htoken⟩ := Prod.mk.inj hkey
    obtain ⟨hstage, hbefore⟩ := moves_iff.mp hmoves
    have htype : t = s.type := Classical.not_not.mp fun hne =>
      hnone ⟨n, t, hstage, htoken, hne, hbefore⟩
    rw [htype]

theorem MeetsNamesake.exists_get? (h : MeetsNamesake w s) :
    ∃ t, w.get? s.home s.type.token = some t ∧ t ≠ s.type := by
  obtain ⟨n, t, hstage, htoken, hne, -⟩ := h
  cases n with
  | zero => exact absurd (congrArg Stage.type (Option.some.inj hstage)).symm hne
  | succ n =>
    exact ⟨t, World.get?_eq_some_iff.mpr ⟨mem_types_of_stage? hstage, htoken⟩, hne⟩

theorem MeetsNamesake.run (h : MeetsNamesake w s) :
    ∃ r, (walk w).run s = .repeated r ∧ r.type.token = s.type.token := by
  obtain ⟨n, t, hstage, htoken, hne, hbefore⟩ := h
  obtain ⟨r, hrun, hkey⟩ := Walk.run_eq_repeated_of_key_eq (registered? w) registered?_of_step
    (moves_iff.mpr ⟨hstage, hbefore⟩) (Prod.ext rfl htoken) fun heq => hne (congrArg Stage.type heq)
  exact ⟨r, hrun, congrArg Prod.snd hkey⟩

/-- Where the walk along a chain comes back to a stage, no stage of the chain decides. -/
theorem undecided_of_walk (h : (walk w).FirstReturn s n r) :
    ∀ m q, stage? w s m = some q → ¬Decides w q := by
  intro m
  induction m using Nat.strongRecOn with
  | ind m ih =>
    intro q hq
    have hmoves : (walk w).Moves m s q := moves_iff.mpr ⟨hq, ih⟩
    refine not_decides_iff.mpr ?_
    cases hstep : step w q with
    | answer c => exact absurd hstep (h.step_ne_answer hmoves)
    | move x => exact ⟨x, rfl⟩

theorem run_eq_repeated_iff (h : ¬MeetsNamesake w s) :
    (walk w).run s = .repeated r ↔ RoundFrom w s r := by
  have hfaithful := faithful_walk_iff.mpr h
  constructor
  · intro hrun
    obtain ⟨n, hreturn⟩ := Walk.firstReturn_of_run_eq_repeated hfaithful hrun
    have hgo := undecided_of_walk hreturn
    exact ⟨hgo, n, .of_walk hgo hreturn⟩
  · rintro ⟨hgo, n, hreturn⟩
    cases hrun : (walk w).run s with
    | answered c =>
      obtain ⟨m, q, hmoves, hstep⟩ := (Walk.run_eq_answered_iff hfaithful).mp hrun
      obtain ⟨x, hmove⟩ := not_decides_iff.mp (hgo m q (moves_iff.mp hmoves).1)
      have heq := hstep.symm.trans hmove
      cases heq
    | repeated q =>
      obtain ⟨m, hreturn'⟩ := Walk.firstReturn_of_run_eq_repeated hfaithful hrun
      rw [hreturn.right_unique (.of_walk hgo hreturn')]

end BaseChain

namespace World

open BaseChain

variable {w : World} {home : RegistryId} {t : TypeDef} {token : Token}

/-- A step of the walk gives any verdict but a cycle. -/
theorem classify_eq_cycle_iff_run : w.classify home t = .unclassifiable (.cycle token) ↔
    ∃ s, (walk w).run ⟨home, t⟩ = .repeated s ∧ s.type.token = token := by
  constructor
  · intro h
    cases hrun : (walk w).run ⟨home, t⟩ with
    | answered c =>
      rw [classify_of_answered hrun] at h
      obtain ⟨n, s, -, hstep⟩ := hrun ▸ Walk.endsWith_run (walk w) ⟨home, t⟩
      have hverdict := verdict_of_step hstep
      rw [h] at hverdict
      cases hverdict
    | repeated s =>
      rw [classify_of_repeated hrun] at h
      cases h
      exact ⟨s, rfl, rfl⟩
  · rintro ⟨s, hrun, rfl⟩
    exact classify_of_repeated hrun

theorem classify_eq_cycle_iff : w.classify home t = .unclassifiable (.cycle token) ↔
    MeetsNamesake w ⟨home, t⟩ ∧ token = t.token ∨
      ¬MeetsNamesake w ⟨home, t⟩ ∧ ∃ s, RoundFrom w ⟨home, t⟩ s ∧ s.type.token = token := by
  rw [classify_eq_cycle_iff_run]
  by_cases hmeets : MeetsNamesake w ⟨home, t⟩
  · obtain ⟨r, hrun, htoken⟩ := hmeets.run
    simp only [hrun, hmeets, htoken, Ending.repeated.injEq, exists_eq_left', true_and,
      not_true_eq_false, false_and, or_false, eq_comm]
  · simp only [run_eq_repeated_iff hmeets, hmeets, false_and, not_false_eq_true, true_and, false_or]

theorem classify_eq_allStatic_of_reachesRoot (h : ¬MeetsNamesake w ⟨home, t⟩)
    (hroot : ReachesRoot w ⟨home, t⟩) : w.classify home t = .allStatic := by
  have hfaithful := faithful_walk_iff.mpr h
  exact classify_of_answered ((Walk.run_eq_answered_iff hfaithful).mpr (reachesRoot_iff.mp hroot))

/-- A cycle is answered only for endless chains, and a chain of clean types that ends at the root is
all static, exactly if a chain that meets a namesake of the type that it starts from is endless. Such
a chain is always answered with a cycle; any other one is where no stage decides, with the first
stage that is met again. -/
theorem classify_cycle_iff (w : World) (home : RegistryId) (t : TypeDef) :
    (((∀ token, w.classify home t = .unclassifiable (.cycle token) → Endless w ⟨home, t⟩) ∧
        (ReachesRoot w ⟨home, t⟩ → w.classify home t = .allStatic)) ↔
      (MeetsNamesake w ⟨home, t⟩ → Endless w ⟨home, t⟩)) ∧
    (Endless w ⟨home, t⟩ ↔ ∃ n s, FirstReturn w ⟨home, t⟩ n s) ∧
    (∀ token, w.classify home t = .unclassifiable (.cycle token) ↔
      MeetsNamesake w ⟨home, t⟩ ∧ token = t.token ∨
        ¬MeetsNamesake w ⟨home, t⟩ ∧ ∃ s, RoundFrom w ⟨home, t⟩ s ∧ s.type.token = token) ∧
    (MeetsNamesake w ⟨home, t⟩ → ∃ u, w.get? home t.token = some u ∧ u ≠ t) := by
  refine ⟨?_, endless_iff, fun token => classify_eq_cycle_iff, MeetsNamesake.exists_get?⟩
  constructor
  · rintro ⟨hcycle, -⟩ hmeets
    exact hcycle t.token (classify_eq_cycle_iff.mpr (.inl ⟨hmeets, rfl⟩))
  · intro hendless
    constructor
    · intro token hcycle
      rcases classify_eq_cycle_iff.mp hcycle with ⟨hmeets, -⟩ | ⟨-, s, ⟨-, n, hreturn⟩, -⟩
      · exact hendless hmeets
      · exact hreturn.endless
    · intro hroot
      refine classify_eq_allStatic_of_reachesRoot (fun hmeets => ?_) hroot
      exact hroot.not_endless (hendless hmeets)

/-- A registry with one class, right below the root. -/
def single : Registry where
  types := [⟨.typeDef 1, ⟨"Acme", "Base"⟩, 0, some .object, none, [], [], []⟩]
  links := []
  sorted := by decide
  valid := by decide

/-- A class over the registered one that is not registered itself, and has the token of its base. -/
def unregistered : TypeDef :=
  ⟨.typeDef 1, ⟨"Acme", "Derived"⟩, 0, some (.toDefinition (.typeDef 1) ⟨"Acme", "Base"⟩), none, [],
    [], []⟩

theorem classify_unregistered :
    ReachesRoot ⟨[single]⟩ ⟨0, unregistered⟩ ∧ ¬Endless ⟨[single]⟩ ⟨0, unregistered⟩ ∧
      World.classify ⟨[single]⟩ 0 unregistered = .unclassifiable (.cycle (.typeDef 1)) := by
  have hstage : stage? ⟨[single]⟩ ⟨0, unregistered⟩ 1 = some ⟨0, single.types[0]⟩ := by decide
  have hclean : ∀ m ≤ 1, ∀ q, stage? ⟨[single]⟩ ⟨0, unregistered⟩ m = some q → q.type.Clean := by
    intro m hm q hq
    have hcases : m = 0 ∨ m = 1 := by omega
    rcases hcases with rfl | rfl
    · cases hq
      exact TypeDef.instanceMember?_eq_none_iff.mp (by decide)
    · rw [hstage] at hq
      cases hq
      exact TypeDef.instanceMember?_eq_none_iff.mp (by decide)
  have hroot : ReachesRoot ⟨[single]⟩ ⟨0, unregistered⟩ :=
    ⟨1, ⟨0, single.types[0]⟩, .object, hstage, rfl, rfl, hclean⟩
  have hmeets : MeetsNamesake ⟨[single]⟩ ⟨0, unregistered⟩ := by
    refine ⟨1, single.types[0], hstage, rfl, by decide, fun m hm q hq => ?_⟩
    exact not_decides_of_lt hstage hm hq (hclean m (Nat.le_of_lt hm) q hq)
  exact ⟨hroot, hroot.not_endless, classify_eq_cycle_iff.mpr (.inl ⟨hmeets, rfl⟩)⟩

end World

end ModuleAudit
