import ModuleAudit.Proofs.Round
import ModuleAudit.Proofs.Stream

/-!
# The numbers of an audit

An audit counts its results check by check, and its defects by what the log has grown. The two agree
through the reports: what a check adds to the log are its own reports that were kept. So where checks
say failure exactly if a finding of theirs was kept, failures and defects can be told from each other.

## Main definitions

* `Checked.Candid`: a check that says failure exactly if a finding of it was kept.
* `Summary.Balanced`: how the numbers of an audit hang together.

## Main statements

* `Auditor.exists_adds_checkRules`: audits add to the log just the findings that were kept.
* `Auditor.balanced_audit`: the numbers of every audit hang together.
-/

namespace ModuleAudit

/-! ### Findings and results -/

namespace Checked

variable {ρ : Type}

/-- The check ends with the result that goes with the number of its findings kept, or else it says that
it does not apply, and no finding of it was kept. -/
def Candid (c : Checked ρ) : Prop :=
  c.result = Check.resultOf c.found.length ∨ c.result = .doesNotApply ∧ c.found = []

theorem Candid.result_eq_failure_iff {c : Checked ρ} (h : c.Candid) :
    c.result = .failure ↔ c.found ≠ [] := by
  rw [← List.length_pos_iff]
  rcases h with h | ⟨h, hfound⟩
  · rw [h, Check.resultOf]
    by_cases hpos : 0 < c.found.length <;> simp [hpos]
  · rw [h, hfound]
    simp

end Checked

namespace Auditor

variable {ρ : Type} [Rule ρ]

/-- Checks add to the log just the findings that were kept. -/
theorem adds_checkAll (a : Auditor ρ) (w : World) (m : Module) (agenda : List (ρ × TypeDef)) :
    a.policy.Adds a.log ((a.checkAll w m agenda).1.flatMap (·.found))
      (a.checkAll w m agenda).2.log := by
  induction agenda generalizing a with
  | nil => exact .refl a.policy a.log
  | cons c rest ih => exact (a.adds_check c.1 w m c.2).1.trans (ih (a.check c.1 w m c.2).2)

omit [Rule ρ] in
/-- Where all checks are candid, the failures among them are the checks that had a finding kept. -/
theorem failures_of_candid {checked : List (Checked ρ)} (h : ∀ c ∈ checked, c.Candid) :
    (checked.map (·.result)).count .failure ≤ (checked.flatMap (·.found)).length ∧
      ((checked.map (·.result)).count .failure = 0 → (checked.flatMap (·.found)).length = 0) ∧
      ((∀ c ∈ checked, c.reports.length ≤ 1) →
        (checked.map (·.result)).count .failure = (checked.flatMap (·.found)).length) := by
  induction checked with
  | nil => exact ⟨Nat.le_refl 0, fun _ => rfl, fun _ => rfl⟩
  | cons c rest ih =>
    obtain ⟨hle, hzero, hone⟩ := ih fun d hd => h d (List.mem_cons_of_mem c hd)
    have hfailure := (h c List.mem_cons_self).result_eq_failure_iff
    rw [← List.length_pos_iff] at hfailure
    rw [List.map_cons, List.count_cons, List.flatMap_cons, List.length_append]
    have hfirst : (if (c.result == .failure) = true then 1 else 0) ≤ c.found.length ∧
        ((if (c.result == .failure) = true then 1 else 0) = 0 → c.found.length = 0) := by
      by_cases hresult : c.result = .failure
      · rw [if_pos (beq_iff_eq.mpr hresult)]
        exact ⟨hfailure.mp hresult, nofun⟩
      · have hnone : c.found.length = 0 := Nat.eq_zero_of_not_pos fun h => hresult (hfailure.mpr h)
        rw [if_neg fun h => hresult (beq_iff_eq.mp h)]
        exact ⟨Nat.zero_le _, fun _ => hnone⟩
    refine ⟨by omega, by omega, fun hreports => ?_⟩
    have hrest := hone fun d hd => hreports d (List.mem_cons_of_mem c hd)
    have hc : c.found.length ≤ 1 :=
      Nat.le_trans (Report.length_found_le c.reports) (hreports c List.mem_cons_self)
    omega

/-- The checks of an audit, with one rule after the other, add to the log just the findings that were
kept, in some order. -/
theorem exists_adds_checkRules (a : Auditor ρ) (w : World) (m : Module)
    (agenda : List (ρ × List Nat)) :
    ∃ found, a.policy.Adds a.log found (a.checkRules w m agenda).2.log ∧
      found.Perm ((a.checkRules w m agenda).1.flatMap (·.found)) := by
  induction agenda generalizing a with
  | nil => exact ⟨[], .refl a.policy a.log, .refl []⟩
  | cons c rest ih =>
    obtain ⟨found, hadds, hfound⟩ :=
      a.exists_adds_checkTogether c.1 w m (m.types w) (if a.policy.parallel then c.2 else [])
    rw [← checkTypes_eq] at hadds hfound
    obtain ⟨more, hmore, hperm⟩ := ih (a.checkTypes c.1 w m c.2).2
    have hpolicy : (a.checkTypes c.1 w m c.2).2.policy = a.policy := by rw [checkTypes_snd]
    rw [hpolicy] at hmore
    refine ⟨found ++ more, hadds.trans hmore, ?_⟩
    rw [checkRules_cons, List.flatMap_append]
    exact (List.flatMap_def ▸ hfound.perm_flatten).append hperm

theorem length_checkTypes (a : Auditor ρ) (rule : ρ) (w : World) (m : Module) (turns : List Nat) :
    (a.checkTypes rule w m turns).1.length = (m.types w).length := by
  simpa using congrArg List.length (a.map_checkTypes rule w m turns)

theorem length_checkRules (a : Auditor ρ) (w : World) (m : Module) (agenda : List (ρ × List Nat)) :
    (a.checkRules w m agenda).1.length = (m.types w).length * agenda.length := by
  induction agenda generalizing a with
  | nil => rfl
  | cons c rest ih =>
    rw [checkRules_cons, List.length_append, ih, length_checkTypes, List.length_cons, Nat.mul_succ,
      Nat.add_comm]

theorem length_agenda (a : Auditor ρ) (plan : Plan) :
    (a.agenda plan).length = a.rules.length - a.rules.countP a.isSkipped := by
  have hsplit := List.length_eq_countP_add_countP a.isSkipped (l := a.rules)
  simp only [Bool.not_eq_true, Bool.decide_eq_false] at hsplit
  have hlength := congrArg List.length (a.map_fst_agenda plan)
  rw [List.length_map, ← List.countP_eq_length_filter] at hlength
  omega

theorem count_results (results : List CheckResult) :
    results.count .doesNotApply + results.count .success + results.count .failure =
      results.length := by
  induction results with
  | nil => rfl
  | cons r rest ih =>
    cases r <;> simp <;> omega

theorem isSkipped_of_not_skipInactive {a : Auditor ρ} (h : a.policy.skipInactive = false)
    (rule : ρ) : a.isSkipped rule = false := by
  rw [isSkipped, h, Bool.and_false]

theorem countP_isSkipped_of_not_skipInactive {a : Auditor ρ} (h : a.policy.skipInactive = false) :
    a.rules.countP a.isSkipped = 0 := by
  refine List.countP_eq_zero.mpr fun rule _ => ?_
  rw [isSkipped_of_not_skipInactive h]
  decide

end Auditor

/-! ### Rules that are candid -/

/-- The check ends with what asking for its result says then, or else it says that it does not apply,
and no finding of it was kept. -/
def Check.Candid (policy : Policy) (rule problem : String) (log : DefectLog)
    (c : Check CheckResult) : Prop :=
  let (result, p) := c.run policy rule problem (.start log)
  result = (currentResult.run policy rule problem p).1 ∨ result = .doesNotApply ∧ p.kept = 0

/-- All checks of the rule are candid, whatever they meet. -/
def Rule.Candid {ρ : Type} [Rule ρ] (rule : ρ) : Prop :=
  ∀ policy w m t log,
    (Rule.check rule w m t).Candid policy (Rule.name rule) (Rule.problem rule) log

section Candid

variable {ρ σ : Type} [Rule ρ] [Rule σ]

theorem Rule.Candid.inl {rule : ρ} (h : Candid rule) : Candid (.inl rule : ρ ⊕ σ) := h

theorem Rule.Candid.inr {rule : σ} (h : Candid rule) : Candid (.inr rule : ρ ⊕ σ) := h

theorem StaticCandidate.candid (rule : StaticCandidate) : Rule.Candid rule := by
  intro policy w m t log
  show Check.Candid policy name problem log (check rule w m t)
  unfold StaticCandidate.check
  split
  · exact .inr ⟨rfl, rfl⟩
  · split
    · exact .inl rfl
    · split
      · exact .inl rfl
      · exact .inl rfl

theorem Check.run_reportAll_currentResult (policy : Policy) (rule problem : String)
    (remarks : List Remark) (p : Progress) :
    ((currentResult.reportAll remarks).run policy rule problem p).1 =
      resultOf ((currentResult.reportAll remarks).run policy rule problem p).2.kept := by
  induction remarks generalizing p with
  | nil => rfl
  | cons r rest ih => exact ih _

theorem FixedRule.candid (rule : FixedRule) : Rule.Candid rule := by
  intro policy w m t log
  show Check.Candid policy rule.name rule.problem log (rule.check t)
  unfold FixedRule.check
  split
  · exact .inl (Check.run_reportAll_currentResult ..)
  · exact .inr ⟨rfl, rfl⟩

theorem Auditor.candid_checkAll {agenda : List (ρ × TypeDef)} (h : ∀ c ∈ agenda, Rule.Candid c.1)
    (a : Auditor ρ) (w : World) (m : Module) :
    ∀ c ∈ (a.checkAll w m agenda).1, c.Candid := by
  induction agenda generalizing a with
  | nil => exact nofun
  | cons c rest ih =>
    intro d hd
    rcases List.mem_cons.mp hd with rfl | hd
    · have hkept := (a.adds_check c.1 w m c.2).2
      have hfirst := h c List.mem_cons_self a.policy w m c.2 a.log
      rcases hfirst with hresult | ⟨hresult, hnone⟩
      · exact .inl (hkept ▸ hresult)
      · exact .inr ⟨hresult, List.length_eq_zero_iff.mp (hkept ▸ hnone)⟩
    · exact ih (fun d hd => h d (List.mem_cons_of_mem c hd)) (a.check c.1 w m c.2).2 d hd

end Candid

/-! ### Audits -/

/-- How the numbers of an audit hang together, with its policy, its checks, and the log before and after
it. -/
structure Summary.Balanced {ρ : Type} (s : Summary) (policy : Policy) (checked : List (Checked ρ))
    (before after : DefectLog) : Prop where
  total : s.doesNotApply + s.success + s.failure = s.checks
  checks : s.checks = s.types * (s.rules - s.inactiveRules)
  inactiveRules_le : s.inactiveRules ≤ s.rules
  inactiveRules_eq : policy.skipInactive = false → s.inactiveRules = 0
  /-- The log has grown, by just so many defects. -/
  count_le : before.count ≤ after.count
  count_eq : after.count = before.count + s.defects
  toList_eq : ∃ found, after.toList = before.toList ++ found ∧ found.length = s.defects
  failure_le : (∀ c ∈ checked, c.Candid) → s.failure ≤ s.defects
  failure_eq_zero_iff : (∀ c ∈ checked, c.Candid) → (s.failure = 0 ↔ s.defects = 0)
  failure_eq : (∀ c ∈ checked, c.Candid) → (∀ c ∈ checked, c.reports.length ≤ 1) →
    s.failure = s.defects

namespace Auditor

variable {ρ : Type} [Rule ρ]

/-- The numbers of every audit hang together, whatever its rules do and whatever the log held before:
each check of a rule that is not passed over is counted once, and the defects are what the log has grown
by. Where all checks are candid, there are no more failures than defects, and some of the ones exactly
if there are some of the others; and there are as many, if no check reports more than once. -/
theorem balanced_audit (a : Auditor ρ) (w : World) (m : Module) (plan : Plan) :
    (a.audit w m plan).1.summary.types = (m.types w).length ∧
      (a.audit w m plan).1.summary.rules = a.rules.length ∧
      (a.audit w m plan).1.summary.Balanced a.policy (a.audit w m plan).1.checked a.log
        (a.audit w m plan).2.log := by
  obtain ⟨found, hadds, hperm⟩ := (a.start m).exists_adds_checkRules w m ((a.start m).agenda plan)
  have hrules : (a.start m).rules.length = a.rules.length := List.length_map _
  have hgrown : (a.audit w m plan).2.log.toList = a.log.toList ++ found := hadds.toList_eq
  have hfound : found.length = ((a.audit w m plan).1.checked.flatMap (·.found)).length :=
    hperm.length_eq
  have hcount : (a.audit w m plan).2.log.count = a.log.count + found.length := by
    rw [← DefectLog.length_toList, hgrown, List.length_append, DefectLog.length_toList]
  have hdefects : (a.audit w m plan).1.summary.defects = found.length := by
    show (a.audit w m plan).2.log.count - a.log.count = _
    rw [hcount, Nat.add_sub_cancel_left]
  have hchecks : (a.audit w m plan).1.summary.checks = (m.types w).length *
      ((a.start m).rules.length - (a.start m).rules.countP (a.start m).isSkipped) := by
    rw [← length_agenda (a.start m) plan, ← length_checkRules (a.start m) w m]
    exact (count_results _).trans (List.length_map _)
  refine ⟨rfl, hrules, ⟨rfl, hchecks, List.countP_le_length, fun hskip => ?_, ?_, ?_, ?_, ?_, ?_, ?_⟩⟩
  · exact countP_isSkipped_of_not_skipInactive (a := a.start m) hskip
  · rw [hcount]
    exact Nat.le_add_right _ _
  · rw [hdefects, hcount]
  · exact ⟨_, hgrown, hdefects.symm⟩
  · rw [hdefects, hfound]
    exact fun hcandid => (failures_of_candid hcandid).1
  · rw [hdefects, hfound]
    intro hcandid
    obtain ⟨hle, hzero, -⟩ := failures_of_candid hcandid
    exact ⟨hzero, fun h => Nat.le_zero.mp (h ▸ hle)⟩
  · rw [hdefects, hfound]
    exact fun hcandid => (failures_of_candid hcandid).2.2

theorem balanced_audit_cramped :
    (∀ c ∈ (cramped.audit .linked ⟨"App", .v4_0, 0⟩ overtaking).1.checked, c.Candid) ∧
    (∀ c ∈ (cramped.audit .linked ⟨"App", .v4_0, 0⟩ overtaking).1.checked, c.reports.length ≤ 1) ∧
    (cramped.audit .linked ⟨"App", .v4_0, 0⟩ overtaking).1.summary.failure = 1 ∧
    (cramped.audit .linked ⟨"App", .v4_0, 0⟩ overtaking).1.summary.defects = 1 := by
  have hcandid : ∀ c ∈ (cramped.audit .linked ⟨"App", .v4_0, 0⟩ overtaking).1.checked,
      c.Candid := by
    show ∀ c ∈ (cramped.audit .linked ⟨"App", .v4_0, 0⟩ overtaking).1.checked,
      c.result = Check.resultOf c.found.length ∨ c.result = .doesNotApply ∧ c.found = []
    decide +kernel
  have hreports : ∀ c ∈ (cramped.audit .linked ⟨"App", .v4_0, 0⟩ overtaking).1.checked,
      c.reports.length ≤ 1 := by
    decide +kernel
  obtain ⟨-, -, hbalanced⟩ := balanced_audit cramped .linked ⟨"App", .v4_0, 0⟩ overtaking
  have hfailure :
      (cramped.audit .linked ⟨"App", .v4_0, 0⟩ overtaking).1.summary.failure = 1 := by
    decide +kernel
  exact ⟨hcandid, hreports, hfailure, hbalanced.failure_eq hcandid hreports ▸ hfailure⟩

end Auditor

end ModuleAudit
