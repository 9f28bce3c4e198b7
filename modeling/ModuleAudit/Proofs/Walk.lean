import ModuleAudit.Walk

/-!
# What a walk decides

A walk stops at the first key that it meets again. Where the keys tell apart the states on the way,
that is the first state that it meets again, and such a walk would have gone round for ever: no step
on the way answers.

## Main definitions

* `Walk.Faithful`: the keys tell apart the states that can be reached from a state.
* `Walk.FirstReturn`: after so many moves a state is met again, for the first time on the way.
* `Walk.StepsAgree`, `Walk.EndingsAgree`: two walks take related steps, or end in related ways.

## Main statements

* `Walk.run_eq_answered_iff`: a faithful walk is answered exactly if some state on the way answers.
* `Walk.firstReturn_of_run_eq_repeated`: a faithful walk that is not answered stops at the first state
  that it meets again.
* `Walk.run_eq_repeated_of_key_eq`: a walk that meets the key that it starts from with another state
  stops there, whatever lies behind that state.
* `Walk.run_agree`: walks whose steps agree end in ways that agree.
* `Walk.run_congr`: walks with the same steps end in the same way, whatever their marks.
-/

namespace ModuleAudit.Walk

variable {σ κ α : Type} {w : Walk σ κ α} {s t u : σ} {a b : α} {m n : Nat}

/-! ### Moves -/

theorem Moves.snoc (h : w.Moves n s t) (hstep : w.step t = .move u) : w.Moves (n + 1) s u := by
  induction h with
  | zero s => exact .step hstep (.zero u)
  | step hfirst _ ih => exact .step hfirst (ih hstep)

theorem Moves.exists_last (h : w.Moves (n + 1) s u) :
    ∃ t, w.Moves n s t ∧ w.step t = .move u := by
  induction n generalizing s with
  | zero =>
    cases h with
    | step hstep hrest =>
      cases hrest
      exact ⟨s, .zero s, hstep⟩
  | succ n ih =>
    cases h with
    | step hstep hrest =>
      obtain ⟨t, ht, hlast⟩ := ih hrest
      exact ⟨t, .step hstep ht, hlast⟩

theorem Moves.exists_of_le (h : w.Moves n s u) (hle : m ≤ n) : ∃ t, w.Moves m s t := by
  induction hle generalizing u with
  | refl => exact ⟨u, h⟩
  | step _ ih =>
    obtain ⟨t, ht, -⟩ := h.exists_last
    exact ih ht

theorem Moves.exists_step_of_lt (h : w.Moves n s u) (hlt : m < n) (ht : w.Moves m s t) :
    ∃ v, w.step t = .move v := by
  obtain ⟨v, hv⟩ := h.exists_of_le (Nat.succ_le_of_lt hlt)
  obtain ⟨t', ht', hstep⟩ := hv.exists_last
  rw [ht.right_unique ht']
  exact ⟨v, hstep⟩

theorem Moves.le_of_answer (h : w.Moves n s t) (ha : w.step t = .answer a) (hu : w.Moves m s u) :
    m ≤ n := by
  refine Nat.le_of_not_lt fun hlt => ?_
  obtain ⟨v, hv⟩ := hu.exists_step_of_lt hlt h
  rw [ha] at hv
  cases hv

theorem Moves.answering_unique (h : w.Moves n s t) (ha : w.step t = .answer a)
    (hu : w.Moves m s u) (hb : w.step u = .answer b) : t = u := by
  have hmn : m = n := Nat.le_antisymm (h.le_of_answer ha hu) (hu.le_of_answer hb h)
  subst hmn
  exact h.right_unique hu

theorem Moves.answer_unique (h : w.Moves n s t) (ha : w.step t = .answer a) (hu : w.Moves m s u)
    (hb : w.step u = .answer b) : a = b := by
  rw [← h.answering_unique ha hu hb, ha] at hb
  cases hb
  rfl

/-- Once a state is met again, the moves only lead to states met before. -/
theorem Moves.exists_le_of_return {i : Nat} (hret : w.Moves (n + 1) s u) (hi : i ≤ n)
    (hfirst : w.Moves i s u) (h : w.Moves m s t) : ∃ j ≤ n, w.Moves j s t := by
  induction m generalizing t with
  | zero => exact ⟨0, Nat.zero_le n, h⟩
  | succ m ih =>
    obtain ⟨v, hv, hstep⟩ := h.exists_last
    obtain ⟨j, hj, hjv⟩ := ih hv
    by_cases hjn : j = n
    · -- the step that closes the circle
      subst hjn
      rw [(hjv.snoc hstep).right_unique hret]
      exact ⟨i, hi, hfirst⟩
    · exact ⟨j + 1, by omega, hjv.snoc hstep⟩

/-! ### Faithful walks -/

/-- The keys tell apart the states that can be reached from `s`. -/
def Faithful (w : Walk σ κ α) (s : σ) : Prop :=
  ∀ m n t u, w.Moves m s t → w.Moves n s u → w.key t = w.key u → t = u

/-- Where each key names one state at most, and every step leads to a state that its key names, the
keys tell apart all states but the one that a walk starts from. -/
theorem Moves.eq_of_key_eq (lookup : κ → Option σ)
    (hmove : ∀ t u, w.step t = .move u → lookup (w.key u) = some u) (ht : w.Moves (m + 1) s t)
    (hu : w.Moves (n + 1) s u) (hkey : w.key t = w.key u) : t = u := by
  obtain ⟨_, -, hstep⟩ := ht.exists_last
  obtain ⟨_, -, hstep'⟩ := hu.exists_last
  have hnamed := hmove _ _ hstep
  rw [hkey, hmove _ _ hstep'] at hnamed
  exact (Option.some.inj hnamed).symm

/-- Such keys are faithful unless the walk meets the key that it starts from with another state. -/
theorem faithful_iff_start (lookup : κ → Option σ)
    (hmove : ∀ t u, w.step t = .move u → lookup (w.key u) = some u) :
    w.Faithful s ↔ ∀ n t, w.Moves n s t → w.key t = w.key s → t = s := by
  constructor
  · intro hf n t ht hkey
    exact hf n 0 t s ht (.zero s) hkey
  · intro hstart m n t u ht hu hkey
    cases m with
    | zero =>
      cases ht
      exact (hstart n u hu hkey.symm).symm
    | succ m =>
      cases n with
      | zero =>
        cases hu
        exact hstart (m + 1) t ht hkey
      | succ n => exact ht.eq_of_key_eq lookup hmove hu hkey

/-- Keys are faithful where each of them names one state at most, and every step leads to a state that
its key names. The state that the walk starts from may also have a key that names nothing. -/
theorem faithful_of_lookup {w : Walk σ κ α} {s : σ} (lookup : κ → Option σ)
    (hmove : ∀ t u, w.step t = .move u → lookup (w.key u) = some u)
    (hstart : lookup (w.key s) = none ∨ lookup (w.key s) = some s) : w.Faithful s := by
  refine (faithful_iff_start lookup hmove).mpr fun n t ht hkey => ?_
  cases n with
  | zero =>
    cases ht
    rfl
  | succ n =>
    obtain ⟨v, -, hstep⟩ := ht.exists_last
    have hnamed := hmove v t hstep
    rw [hkey] at hnamed
    rcases hstart with hnone | hself
    · rw [hnone] at hnamed
      cases hnamed
    · rw [hself] at hnamed
      exact (Option.some.inj hnamed).symm

/-- After `n` moves from `s` the state `t` is met again, and up to there all states differ. -/
structure FirstReturn (w : Walk σ κ α) (s : σ) (n : Nat) (t : σ) : Prop where
  moves : w.Moves n s t
  earlier : ∃ i < n, w.Moves i s t
  distinct : ∀ i j u, i < j → j < n → w.Moves i s u → ¬w.Moves j s u

theorem FirstReturn.step_ne_answer (h : w.FirstReturn s n t) (hu : w.Moves m s u) :
    w.step u ≠ .answer a := by
  intro ha
  obtain ⟨i, hi, hfirst⟩ := h.earlier
  obtain ⟨k, rfl⟩ := Nat.exists_eq_succ_of_ne_zero (Nat.ne_zero_of_lt hi)
  obtain ⟨j, hj, hju⟩ := Moves.exists_le_of_return h.moves (Nat.le_of_lt_succ hi) hfirst hu
  have := hju.le_of_answer ha h.moves
  omega

/-! ### Runs -/

/-- What a run from `s` knows once `n` moves have led it to `t`: it has seen the keys of the states up
to there, and no two of them were equal. -/
structure OnWay (w : Walk σ κ α) (s : σ) (n : Nat) (seen : List κ) (t : σ) : Prop where
  moves : w.Moves n s t
  mem_seen : ∀ k, k ∈ seen ↔ ∃ i u, i ≤ n ∧ w.Moves i s u ∧ w.key u = k
  distinct : ∀ i j u v, i < j → j ≤ n → w.Moves i s u → w.Moves j s v → w.key u ≠ w.key v

theorem onWay_start (w : Walk σ κ α) (s : σ) : w.OnWay s 0 [w.key s] s where
  moves := .zero s
  mem_seen k := by
    constructor
    · intro hk
      exact ⟨0, s, Nat.le_refl 0, .zero s, (List.mem_singleton.mp hk).symm⟩
    · rintro ⟨i, u, hi, hu, rfl⟩
      obtain rfl : i = 0 := by omega
      cases hu
      exact List.mem_singleton_self _
  distinct i j u v hij hj := by omega

theorem OnWay.move {seen : List κ} (h : w.OnWay s n seen t) (hstep : w.step t = .move u)
    (hnew : w.key u ∉ seen) : w.OnWay s (n + 1) (w.key u :: seen) u where
  moves := h.moves.snoc hstep
  mem_seen k := by
    rw [List.mem_cons, h.mem_seen]
    constructor
    · rintro (rfl | ⟨i, v, hi, hv, rfl⟩)
      · exact ⟨n + 1, u, Nat.le_refl _, h.moves.snoc hstep, rfl⟩
      · exact ⟨i, v, Nat.le_succ_of_le hi, hv, rfl⟩
    · rintro ⟨i, v, hi, hv, rfl⟩
      by_cases hin : i ≤ n
      · exact .inr ⟨i, v, hin, hv, rfl⟩
      · obtain rfl : i = n + 1 := by omega
        rw [hv.right_unique (h.moves.snoc hstep)]
        exact .inl rfl
  distinct i j x y hij hj hx hy := by
    by_cases hjn : j ≤ n
    · exact h.distinct i j x y hij hjn hx hy
    · -- the last state has the new key, and all keys before it have been seen
      obtain rfl : j = n + 1 := by omega
      rw [hy.right_unique (h.moves.snoc hstep)]
      intro hkey
      exact hnew ((h.mem_seen _).mpr ⟨i, x, by omega, hx, hkey⟩)

/-- What the end of a run from `s` says about the way. -/
def EndsWith (w : Walk σ κ α) (s : σ) : Ending σ α → Prop
  | .answered a => ∃ n t, w.Moves n s t ∧ w.step t = .answer a
  | .repeated t => ∃ n, w.Moves (n + 1) s t ∧ (∃ i ≤ n, ∃ u, w.Moves i s u ∧ w.key u = w.key t) ∧
      ∀ i j u v, i < j → j ≤ n → w.Moves i s u → w.Moves j s v → w.key u ≠ w.key v

variable [DecidableEq κ]

/-- A run stops on its way, either where a step answers or where a step leads to a key seen before. -/
theorem OnWay.exists_last {seen : List κ} (h : w.OnWay s n seen t) :
    ∃ m last u, w.OnWay s m last u ∧
      ((∃ a, w.step u = .answer a ∧ w.runFrom seen t = .answered a) ∨
        ∃ v, w.step u = .move v ∧ w.key v ∈ last ∧ w.runFrom seen t = .repeated v) := by
  -- each move that goes on uses up a mark, so the induction is on the marks that are left
  induction hleft : (w.unseen seen).length using Nat.strongRecOn generalizing n seen t with
  | ind left ih =>
    cases hstep : w.step t with
    | answer a => exact ⟨n, seen, t, h, .inl ⟨a, hstep, runFrom_of_answer hstep⟩⟩
    | move u =>
      by_cases hseen : w.key u ∈ seen
      · exact ⟨n, seen, t, h, .inr ⟨u, hstep, hseen, runFrom_of_repeat hstep hseen⟩⟩
      · rw [runFrom_of_move hstep hseen]
        have hlt := length_filter_not_mem_cons_lt (w.key_mem_marks t u hstep) hseen
        exact ih _ (hleft ▸ hlt) (h.move hstep hseen) rfl

theorem OnWay.endsWith_runFrom {seen : List κ} (h : w.OnWay s n seen t) :
    w.EndsWith s (w.runFrom seen t) := by
  obtain ⟨m, last, u, hlast, ⟨a, hstep, hrun⟩ | ⟨v, hstep, hseen, hrun⟩⟩ := h.exists_last
  · rw [hrun]
    exact ⟨m, u, hlast.moves, hstep⟩
  · rw [hrun]
    obtain ⟨i, x, hi, hx, hkey⟩ := (hlast.mem_seen _).mp hseen
    exact ⟨m, hlast.moves.snoc hstep, ⟨i, hi, x, hx, hkey⟩, hlast.distinct⟩

theorem endsWith_run (w : Walk σ κ α) (s : σ) : w.EndsWith s (w.run s) :=
  (onWay_start w s).endsWith_runFrom

/-- A walk that is answered meets no key twice. -/
theorem key_ne_of_run_eq_answered {i j : Nat} (h : w.run s = .answered a) (hij : i < j)
    (ht : w.Moves i s t) (hu : w.Moves j s u) : w.key t ≠ w.key u := by
  obtain ⟨m, last, x, hlast, ⟨b, hstep, -⟩ | ⟨v, -, -, hrun⟩⟩ := (onWay_start w s).exists_last
  · have hjm : j ≤ m := hlast.moves.le_of_answer hstep hu
    exact hlast.distinct i j t u hij hjm ht hu
  · have heq := h.symm.trans hrun
    cases heq

/-- A walk that meets the key that it starts from with another state stops there. -/
theorem run_eq_repeated_of_key_eq (lookup : κ → Option σ)
    (hmove : ∀ t u, w.step t = .move u → lookup (w.key u) = some u) (ht : w.Moves n s t)
    (hkey : w.key t = w.key s) (hne : t ≠ s) :
    ∃ u, w.run s = .repeated u ∧ w.key u = w.key s := by
  have hpos : 0 < n := by
    refine Nat.pos_of_ne_zero fun hn => ?_
    subst hn
    cases ht
    exact hne rfl
  have hend := endsWith_run w s
  cases hrun : w.run s with
  | answered a => exact absurd hkey.symm (key_ne_of_run_eq_answered hrun hpos (.zero s) ht)
  | repeated u =>
    rw [hrun] at hend
    obtain ⟨m, hu, ⟨i, hi, x, hx, hxu⟩, hdistinct⟩ := hend
    refine ⟨u, rfl, ?_⟩
    cases i with
    | zero =>
      cases hx
      exact hxu.symm
    | succ i =>
      -- a walk that goes round without its start would have met the start's key on the way
      obtain rfl : x = u := hx.eq_of_key_eq lookup hmove hu hxu
      obtain ⟨j, hj, hjt⟩ := hu.exists_le_of_return hi hx ht
      rcases Nat.eq_zero_or_pos j with rfl | hj0
      · cases hjt
        exact absurd rfl hne
      · exact absurd hkey.symm (hdistinct 0 j s t hj0 hj (.zero s) hjt)

/-- A faithful walk that is not answered stops at the first state that it meets again. -/
theorem firstReturn_of_run_eq_repeated (hf : w.Faithful s) (h : w.run s = .repeated t) :
    ∃ n, w.FirstReturn s n t := by
  have hend := endsWith_run w s
  rw [h] at hend
  obtain ⟨n, hmoves, ⟨i, hi, u, hu, hkey⟩, hdistinct⟩ := hend
  refine ⟨n + 1, hmoves, ⟨i, Nat.lt_succ_of_le hi, ?_⟩, ?_⟩
  · rw [← hf _ _ _ _ hu hmoves hkey]
    exact hu
  · intro j k v hjk hk hj hk'
    exact hdistinct j k v v hjk (Nat.le_of_lt_succ hk) hj hk' rfl

/-- A faithful walk is answered exactly if some state on the way answers. -/
theorem run_eq_answered_iff (hf : w.Faithful s) :
    w.run s = .answered a ↔ ∃ n t, w.Moves n s t ∧ w.step t = .answer a := by
  constructor
  · intro h
    have hend := endsWith_run w s
    rw [h] at hend
    exact hend
  · rintro ⟨n, t, ht, ha⟩
    cases hrun : w.run s with
    | answered b =>
      have hend := endsWith_run w s
      rw [hrun] at hend
      obtain ⟨m, u, hu, hb⟩ := hend
      rw [ht.answer_unique ha hu hb]
    | repeated u =>
      obtain ⟨m, hret⟩ := firstReturn_of_run_eq_repeated hf hrun
      exact absurd ha (hret.step_ne_answer ht)

/-! ### Two walks side by side -/

variable {τ : Type} {R : σ → τ → Prop}

/-- Two steps give the same answer, or lead to related states. -/
inductive StepsAgree (R : σ → τ → Prop) : Step σ α → Step τ α → Prop
  | answer (a : α) : StepsAgree R (.answer a) (.answer a)
  | move {s : σ} {t : τ} (related : R s t) : StepsAgree R (.move s) (.move t)

/-- Two walks end with the same answer, or by coming back to related states. -/
inductive EndingsAgree (R : σ → τ → Prop) : Ending σ α → Ending τ α → Prop
  | answered (a : α) : EndingsAgree R (.answered a) (.answered a)
  | repeated {s : σ} {t : τ} (related : R s t) : EndingsAgree R (.repeated s) (.repeated t)

theorem runFrom_agree {v : Walk σ κ α} {w : Walk τ κ α} (hkey : ∀ s t, R s t → v.key s = w.key t)
    (hstep : ∀ s t, R s t → StepsAgree R (v.step s) (w.step t)) {seen : List κ} {s : σ} {t : τ}
    (h : R s t) : EndingsAgree R (v.runFrom seen s) (w.runFrom seen t) := by
  -- the same keys are seen on both sides, so the marks of one walk bound the two of them
  induction hleft : (v.unseen seen).length using Nat.strongRecOn generalizing seen s t with
  | ind left ih =>
    have hagree := hstep s t h
    cases hv : v.step s with
    | answer a =>
      cases hw : w.step t with
      | answer b =>
        rw [hv, hw] at hagree
        cases hagree
        rw [runFrom_of_answer hv, runFrom_of_answer hw]
        exact .answered a
      | move t' =>
        rw [hv, hw] at hagree
        cases hagree
    | move s' =>
      cases hw : w.step t with
      | answer b =>
        rw [hv, hw] at hagree
        cases hagree
      | move t' =>
        rw [hv, hw] at hagree
        cases hagree with
        | move related =>
          by_cases hseen : v.key s' ∈ seen
          · rw [runFrom_of_repeat hv hseen, runFrom_of_repeat hw (hkey s' t' related ▸ hseen)]
            exact .repeated related
          · rw [runFrom_of_move hv hseen, runFrom_of_move hw (hkey s' t' related ▸ hseen),
              ← hkey s' t' related]
            have hlt := length_filter_not_mem_cons_lt (v.key_mem_marks s s' hv) hseen
            exact ih _ (hleft ▸ hlt) related rfl

theorem run_agree {v : Walk σ κ α} {w : Walk τ κ α} (hkey : ∀ s t, R s t → v.key s = w.key t)
    (hstep : ∀ s t, R s t → StepsAgree R (v.step s) (w.step t)) {s : σ} {t : τ} (h : R s t) :
    EndingsAgree R (v.run s) (w.run t) := by
  unfold run
  rw [hkey s t h]
  exact runFrom_agree hkey hstep h

/-- Walks with the same steps end in the same way, even if they count different marks. -/
theorem run_congr {v w : Walk σ κ α} (hkey : v.key = w.key) (hstep : v.step = w.step) (s : σ) :
    v.run s = w.run s := by
  have hagree : EndingsAgree Eq (v.run s) (w.run s) := by
    refine run_agree (fun s t h => ?_) (fun s t h => ?_) rfl
    · rw [h, hkey]
    · rw [h, hstep]
      cases w.step t with
      | answer a => exact .answer a
      | move u => exact .move rfl
  generalize v.run s = ending at hagree
  generalize w.run s = ending' at hagree
  cases hagree with
  | answered a => rfl
  | repeated related => rw [related]

end ModuleAudit.Walk
