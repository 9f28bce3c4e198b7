import ModuleAudit.Proofs.Accounts

/-!
# Skipping the rules that are off

A policy may pass over the rules that are off for a module. Where a rule that is off has nothing to say
and nothing to report, it makes no difference to the log whether it is asked: an audit that asks it
counts checks that do not apply, and an audit that does not counts the rule.

## Main definitions

* `Rule.Silent`: while the rule is off, its checks do not apply and report nothing.
* `Check.Quiet`: a check that does not apply and reports nothing, as long as nothing of it is kept.
* `Auditor.skipping`: the auditor that passes over rules that are off, or does not.

## Main statements

* `Auditor.checkTypes_of_silent`: checks with a silent rule that is off leave the auditor as it is,
  whatever turns they take.
* `Auditor.checkRules_active`: checks with silent rules can be left out where the rules are off.
* `Auditor.audit_skipping`: what an audit says and records with and without the rules that are off.
-/

namespace ModuleAudit

/-- While the rule is off, its checks say that it does not apply, and report nothing. -/
def Rule.Silent {ρ : Type} [Rule ρ] (rule : ρ) : Prop :=
  Rule.isActive rule = false → ∀ policy w m t log,
    let (result, p) :=
      (Rule.check rule w m t).run policy (Rule.name rule) (Rule.problem rule) (.start log)
    result = .doesNotApply ∧ p.reports = []

theorem Rule.silent_of_done {ρ : Type} [Rule ρ] {rule : ρ} (h : Rule.isActive rule = false →
    ∀ w m t, Rule.check rule w m t = .done .doesNotApply) : Silent rule := by
  intro hoff policy w m t log
  rw [h hoff w m t]
  exact ⟨rfl, rfl⟩

theorem StaticCandidate.silent (rule : StaticCandidate) : Rule.Silent rule := by
  apply Rule.silent_of_done
  intro hoff w m t
  show rule.check w m t = .done .doesNotApply
  have hactive : rule.active = false := hoff
  rw [check, hactive]
  rfl

theorem FixedRule.silent (rule : FixedRule) : Rule.Silent rule := by
  apply Rule.silent_of_done
  intro hoff w m t
  show rule.check t = .done .doesNotApply
  have hactive : rule.active = false := hoff
  rw [check, hactive]
  rfl

section Sum

variable {ρ σ : Type} [Rule ρ] [Rule σ]

theorem Rule.Silent.inl {rule : ρ} (h : Silent rule) : Silent (.inl rule : ρ ⊕ σ) := h

theorem Rule.Silent.inr {rule : σ} (h : Silent rule) : Silent (.inr rule : ρ ⊕ σ) := h

end Sum

/-! ### Checks that say nothing -/

namespace Check

variable {α : Type} {policy : Policy} {rule problem : String}

/-- The reports of a check stay while it goes on. -/
theorem reports_prefix_run (policy : Policy) (rule problem : String) (c : Check α) (p : Progress) :
    p.reports <+: (c.run policy rule problem p).2.reports := by
  induction c generalizing p with
  | done value => exact List.prefix_refl _
  | report target severity confidence next ih =>
    let d : Defect := .ofType rule problem target severity confidence
    have htake : (p.take policy d).2.reports = p.reports ++ [⟨d, (p.take policy d).1⟩] := by
      rw [Progress.take_eq]
      split <;> rfl
    exact .trans ⟨_, htake.symm⟩ (ih (p.take policy d).1 (p.take policy d).2)
  | askKept next ih => exact ih p.kept p

/-- The check may ask how many of its findings were kept. As there are none, it says that it does not
apply, and reports nothing. -/
inductive Quiet : Check CheckResult → Prop
  | done : Quiet (.done .doesNotApply)
  | askKept {next : Nat → Check CheckResult} (h : Quiet (next 0)) : Quiet (.askKept next)

/-- A check is quiet if it reports nothing over some log and does not apply. -/
theorem quiet_of_run {c : Check CheckResult} {log : DefectLog}
    (hresult : (c.run policy rule problem (.start log)).1 = .doesNotApply)
    (hreports : (c.run policy rule problem (.start log)).2.reports = []) : c.Quiet := by
  induction c with
  | done value =>
    obtain rfl : value = .doesNotApply := hresult
    exact .done
  | report target severity confidence next ih =>
    -- its first report would stay
    let d : Defect := .ofType rule problem target severity confidence
    obtain ⟨kept, p, htake⟩ : ∃ kept p, (Progress.start log).take policy d = (kept, p) := ⟨_, _, rfl⟩
    have hreported : p.reports = [⟨d, kept⟩] := by
      rw [Progress.take_eq] at htake
      split at htake <;> obtain ⟨rfl, rfl⟩ := htake <;> rfl
    rw [run, htake] at hreports
    have hprefix := reports_prefix_run policy rule problem (next kept) p
    rw [hreports, hreported] at hprefix
    cases List.prefix_nil.mp hprefix
  | askKept next ih => exact .askKept (ih 0 hresult hreports)

/-- Whether rules are skipped makes no difference to the course of a check. -/
theorem run_skipInactive (policy : Policy) (skip : Bool) (rule problem : String) (c : Check α)
    (p : Progress) :
    c.run { policy with skipInactive := skip } rule problem p = c.run policy rule problem p := by
  induction c generalizing p with
  | done value => rfl
  | report target severity confidence next ih => exact ih _ _
  | askKept next ih => exact ih _ _

end Check

theorem Rule.Silent.quiet {ρ : Type} [Rule ρ] {rule : ρ} (h : Silent rule)
    (hoff : Rule.isActive rule = false) (w : World) (m : Module) (t : TypeDef) :
    (Rule.check rule w m t).Quiet := by
  obtain ⟨hresult, hreports⟩ := h hoff .standard w m t .empty
  exact Check.quiet_of_run hresult hreports

/-- The check has written and reported nothing, and will not. -/
structure Lane.Quiet (l : Lane) : Prop where
  held : l.held = none
  kept : l.kept = 0
  reports : l.reports = []
  rest : l.rest.Quiet

/-- All that a quiet check does is to ask, which leaves it quiet. -/
theorem Lane.Quiet.step {policy : Policy} {rule problem : String} {free : Bool} {l l' : Lane}
    {written : Option Defect} (h : l.Quiet) (hstep : Step policy rule problem free l written l') :
    l'.Quiet := by
  obtain ⟨hheld, hkept, hreports, hrest⟩ := h
  cases hstep with
  | write held => cases hheld.symm.trans held
  | @ask next held rest =>
    rw [rest] at hrest
    cases hrest with
    | askKept hnext => exact ⟨hheld, hkept, hreports, hkept ▸ hnext⟩
  | reserve held rest => cases rest ▸ hrest
  | refuse held rest => cases rest ▸ hrest

theorem Lane.Ends.eq_of_quiet {ρ : Type} {rule : ρ} {l : Lane} {c : Checked ρ} (h : Ends rule l c)
    (hl : l.Quiet) : c = ⟨rule, l.type, .doesNotApply, []⟩ := by
  have hrest := hl.rest
  rw [h.rest] at hrest
  obtain ⟨rule', type, result, reports⟩ := c
  obtain ⟨rfl, rfl, -, -, rfl⟩ := h
  rw [hl.reports]
  cases hrest
  rfl

namespace Auditor

variable {ρ : Type} [Rule ρ] {rule : ρ} {agenda : List (ρ × List Nat)} {w : World} {m : Module}

theorem rule_of_mem_checkTypes {a : Auditor ρ} {turns : List Nat} {c : Checked ρ}
    (h : c ∈ (a.checkTypes rule w m turns).1) : c.rule = rule := by
  have hmem := List.mem_map_of_mem (f := fun c => (c.rule, c.type)) h
  rw [map_checkTypes] at hmem
  obtain ⟨t, -, hc⟩ := List.mem_map.mp hmem
  exact (congrArg Prod.fst hc).symm

/-- Checks with a silent rule that is off leave the auditor as it is, whatever turns they take. -/
theorem checkTypes_of_silent (h : Rule.Silent rule) (hoff : Rule.isActive rule = false)
    (a : Auditor ρ) (w : World) (m : Module) (turns : List Nat) :
    a.checkTypes rule w m turns = ((m.types w).map fun t => ⟨rule, t, .doesNotApply, []⟩, a) := by
  rw [checkTypes_eq]
  generalize (if a.policy.parallel then turns else []) = turns
  obtain ⟨ended, hsteps, hends⟩ := a.exists_steps_checkTogether rule w m (m.types w) turns
  obtain ⟨found, hadds, hfound⟩ := a.exists_adds_checkTogether rule w m (m.types w) turns
  have htypes : ended.map (·.type) = m.types w := hsteps.map_type_start
  have hquiet : ∀ l ∈ ended, l.Quiet := by
    refine hsteps.forall_lanes (fun _ l _ l' hstep hl => hl.step hstep) fun l hl => ?_
    obtain ⟨t, -, rfl⟩ := List.mem_map.mp hl
    exact ⟨rfl, rfl, rfl, h.quiet hoff w m t⟩
  have hchecked : (a.checkTogether rule w m (m.types w) turns).1 =
      (m.types w).map fun t => ⟨rule, t, .doesNotApply, []⟩ := by
    rw [Lane.eq_map_of_ends hends fun l hl c hc => hc.eq_of_quiet (hquiet l hl), ← htypes,
      List.map_map]
    rfl
  have hnone : found = [] := by
    have hperm := hfound.perm_flatten
    rw [hchecked, List.map_map] at hperm
    refine List.eq_nil_of_length_eq_zero (hperm.length_eq.trans ?_)
    simp [Checked.found, Report.found, Function.comp_def]
  have hlog : (a.checkTogether rule w m (m.types w) turns).2.log = a.log := by
    rw [hnone] at hadds
    exact DefectLog.eq_of_toList_eq (hadds.toList_eq.trans (List.append_nil _))
  refine Prod.ext hchecked ?_
  rw [checkTogether_snd, hlog]

/-- Checks with silent rules can be left out where the rules are off: the others say the same, and leave
the auditor the same. -/
theorem checkRules_active (h : ∀ c ∈ agenda, Rule.Silent c.1) (a : Auditor ρ) (w : World)
    (m : Module) : a.checkRules w m (agenda.filter fun c => Rule.isActive c.1) =
      ((a.checkRules w m agenda).1.filter (fun c => Rule.isActive c.rule),
        (a.checkRules w m agenda).2) := by
  induction agenda generalizing a with
  | nil => rfl
  | cons c rest ih =>
    obtain ⟨rule, turns⟩ := c
    obtain ⟨hfirst, hrest⟩ := List.forall_mem_cons.mp h
    rw [List.filter_cons, checkRules_cons, List.filter_append]
    by_cases hactive : Rule.isActive rule = true
    · have hall : (a.checkTypes rule w m turns).1.filter (fun c => Rule.isActive c.rule) =
          (a.checkTypes rule w m turns).1 :=
        List.filter_eq_self.mpr fun c hc => (rule_of_mem_checkTypes hc).symm ▸ hactive
      rw [if_pos hactive, checkRules_cons, ih hrest, hall]
    · have hoff : Rule.isActive rule = false := Bool.not_eq_true _ ▸ hactive
      rw [if_neg hactive, ih hrest, checkTypes_of_silent hfirst hoff]
      simp [hoff]

theorem result_of_silent (h : ∀ c ∈ agenda, Rule.Silent c.1) (a : Auditor ρ) (w : World)
    (m : Module) : ∀ c ∈ (a.checkRules w m agenda).1, Rule.isActive c.rule = false →
      c.result = .doesNotApply := by
  induction agenda generalizing a with
  | nil => exact nofun
  | cons c rest ih =>
    obtain ⟨hfirst, hrest⟩ := List.forall_mem_cons.mp h
    intro d hd hoff
    rw [checkRules_cons] at hd
    rcases List.mem_append.mp hd with hd | hd
    · rw [rule_of_mem_checkTypes hd] at hoff
      rw [checkTypes_of_silent hfirst hoff] at hd
      obtain ⟨t, -, rfl⟩ := List.mem_map.mp hd
      rfl
    · exact ih hrest _ d hd hoff

/-- Where the checks of rules that are off do not apply, they add to the count of this result and to no
other. -/
theorem count_results_active {checked : List (Checked ρ)}
    (h : ∀ c ∈ checked, Rule.isActive c.rule = false → c.result = .doesNotApply) (r : CheckResult) :
    (checked.map (·.result)).count r =
      ((checked.filter fun c => Rule.isActive c.rule).map (·.result)).count r +
        if r = .doesNotApply then checked.countP fun c => !Rule.isActive c.rule else 0 := by
  induction checked with
  | nil => split <;> rfl
  | cons c rest ih =>
    have hrest := ih fun d hd => h d (List.mem_cons_of_mem c hd)
    rw [List.map_cons, List.count_cons, hrest, List.filter_cons, List.countP_cons]
    by_cases hactive : Rule.isActive c.rule = true
    · rw [if_pos hactive, List.map_cons, List.count_cons, hactive]
      simp only [Bool.not_true, Bool.false_eq_true, if_false, Nat.add_zero]
      omega
    · have hoff := Bool.eq_false_iff.mpr hactive
      have hresult := h c List.mem_cons_self hoff
      rw [if_neg hactive, hresult, hoff]
      by_cases hr : r = .doesNotApply
      · subst hr
        simp only [beq_self_eq_true, Bool.not_false, if_true]
        omega
      · have hne : (CheckResult.doesNotApply == r) = false := by simpa using Ne.symm hr
        simp [hr, hne]

/-! ### Both audits -/

omit [Rule ρ] in
/-- The auditor that passes over the rules that are off, or does not, and is the same otherwise. -/
def skipping (a : Auditor ρ) (skip : Bool) : Auditor ρ :=
  a.under { a.policy with skipInactive := skip }

theorem finish_skipping (a : Auditor ρ) (skip : Bool) (rule : ρ) (lanes : List Lane) :
    (a.skipping skip).finish rule lanes =
      ((a.finish rule lanes).1, (a.finish rule lanes).2.skipping skip) := by
  induction lanes generalizing a with
  | nil => rfl
  | cons l rest ih =>
    let after := (l.rest.run a.policy (Rule.name rule) (Rule.problem rule)
      ⟨a.log, l.kept, l.reports⟩).2.log
    have hrest := ih { a with log := after }
    simp only [finish, skipping, under, Check.run_skipInactive] at hrest ⊢
    rw [hrest]

theorem checkTypes_skipping (a : Auditor ρ) (skip : Bool) (rule : ρ) (w : World) (m : Module)
    (turns : List Nat) : (a.skipping skip).checkTypes rule w m turns =
      ((a.checkTypes rule w m turns).1, (a.checkTypes rule w m turns).2.skipping skip) := by
  let r := ((Round.start rule w m a.log (m.types w)).after a.policy (Rule.name rule)
    (Rule.problem rule) (if a.policy.parallel then turns else [])).settled
  rw [checkTypes_eq, checkTypes_eq]
  exact finish_skipping { a with log := r.log } skip rule r.lanes

theorem checkRules_skipping (a : Auditor ρ) (skip : Bool) (w : World) (m : Module)
    (agenda : List (ρ × List Nat)) : (a.skipping skip).checkRules w m agenda =
      ((a.checkRules w m agenda).1, (a.checkRules w m agenda).2.skipping skip) := by
  induction agenda generalizing a with
  | nil => rfl
  | cons c rest ih =>
    rw [checkRules_cons, checkTypes_skipping, ih]
    rfl

theorem agenda_skipping_false (a : Auditor ρ) (plan : Plan) :
    (a.skipping false).agenda plan = a.rules.zipIdx.map fun (rule, i) => (rule, plan i) := by
  have hall : a.rules.zipIdx.filter (!(a.skipping false).isSkipped ·.1) = a.rules.zipIdx :=
    List.filter_eq_self.mpr fun c _ => by
      rw [isSkipped_of_not_skipInactive rfl]
      rfl
  exact congrArg (List.map _) hall

theorem isSkipped_skipping_true (a : Auditor ρ) (rule : ρ) :
    (a.skipping true).isSkipped rule = !Rule.isActive rule := Bool.and_true _

/-- A rule keeps its turns where others are passed over. -/
theorem agenda_skipping_true (a : Auditor ρ) (plan : Plan) : (a.skipping true).agenda plan =
    ((a.skipping false).agenda plan).filter fun c => Rule.isActive c.1 := by
  rw [agenda_skipping_false, List.filter_map, agenda]
  simp only [isSkipped_skipping_true, Bool.not_not]
  rfl

/-- The checks that only an audit makes that skips no rule: those of the rules that are off. -/
theorem countP_off_checkRules (a : Auditor ρ) (w : World) (m : Module)
    (agenda : List (ρ × List Nat)) :
    (a.checkRules w m agenda).1.countP (fun c => !Rule.isActive c.rule) =
      (m.types w).length * (agenda.map (·.1)).countP fun rule => !Rule.isActive rule := by
  induction agenda generalizing a with
  | nil => rfl
  | cons c rest ih =>
    have hfirst : (a.checkTypes c.1 w m c.2).1.countP (fun c => !Rule.isActive c.rule) =
        if !Rule.isActive c.1 then (m.types w).length else 0 := by
      split
      · next hoff =>
        rw [← length_checkTypes a c.1 w m c.2]
        exact List.countP_eq_length.mpr fun d hd => (rule_of_mem_checkTypes hd).symm ▸ hoff
      · next hactive =>
        exact List.countP_eq_zero.mpr fun d hd => (rule_of_mem_checkTypes hd).symm ▸ hactive
    rw [checkRules_cons, List.countP_append, ih, hfirst, List.map_cons, List.countP_cons, Nat.mul_add]
    split <;> omega

theorem summary_audit_skipping (a : Auditor ρ) (skip : Bool) (w : World) (m : Module) (plan : Plan) :
    ((a.skipping skip).audit w m plan).1.summary = {
      module := m.name
      types := (m.types w).length
      rules := (a.start m).rules.length
      inactiveRules := (a.start m).rules.countP ((a.start m).skipping skip).isSkipped
      doesNotApply :=
        (((a.skipping skip).audit w m plan).1.checked.map (·.result)).count .doesNotApply
      success := (((a.skipping skip).audit w m plan).1.checked.map (·.result)).count .success
      failure := (((a.skipping skip).audit w m plan).1.checked.map (·.result)).count .failure
      defects := ((a.skipping skip).audit w m plan).2.log.count - a.log.count } := rfl

theorem audit_skipping_eq (a : Auditor ρ) (skip : Bool) (w : World) (m : Module) (plan : Plan) :
    ((a.skipping skip).audit w m plan).1.checked =
        ((a.start m).checkRules w m (((a.start m).skipping skip).agenda plan)).1 ∧
      ((a.skipping skip).audit w m plan).2.log =
        ((a.start m).checkRules w m (((a.start m).skipping skip).agenda plan)).2.log := by
  have hrun := (a.start m).checkRules_skipping skip w m (((a.start m).skipping skip).agenda plan)
  constructor
  · have hfst := congrArg Prod.fst hrun
    exact hfst
  · have hlog := congrArg (fun x => x.2.log) hrun
    exact hlog

/-- With silent rules it makes no difference to the log whether rules that are off are skipped, if the
checks take the same turns; so the logs that can come of it are the same. The audit that does not skip
them counts one check more that does not apply for each of them and each type, and no rule as inactive;
all else in its summary is the same. -/
theorem audit_skipping {a : Auditor ρ} {m : Module}
    (h : ∀ rule ∈ (a.start m).rules, Rule.Silent rule) (w : World) (plan : Plan) :
    ((a.skipping false).audit w m plan).2.log = ((a.skipping true).audit w m plan).2.log ∧
    ((a.skipping false).audit w m plan).1.summary =
      { ((a.skipping true).audit w m plan).1.summary with
        doesNotApply := ((a.skipping true).audit w m plan).1.summary.doesNotApply +
          ((a.skipping true).audit w m plan).1.summary.types *
            ((a.skipping true).audit w m plan).1.summary.inactiveRules
        inactiveRules := 0 } := by
  have hrules : (((a.start m).skipping false).agenda plan).map (·.1) = (a.start m).rules := by
    rw [agenda_skipping_false, List.map_map]
    exact List.zipIdx_map_fst ..
  have hsilent : ∀ c ∈ ((a.start m).skipping false).agenda plan, Rule.Silent c.1 := by
    intro c hc
    exact h c.1 (hrules ▸ List.mem_map_of_mem hc)
  obtain ⟨hchecked, hlog⟩ := a.audit_skipping_eq false w m plan
  obtain ⟨hchecked', hlog'⟩ := a.audit_skipping_eq true w m plan
  rw [agenda_skipping_true, checkRules_active hsilent, ← hchecked] at hchecked'
  rw [agenda_skipping_true, checkRules_active hsilent, ← hlog] at hlog'
  have hresult := result_of_silent hsilent (a.start m) w m
  have hoff := (a.start m).countP_off_checkRules w m (((a.start m).skipping false).agenda plan)
  have hskipped : (a.start m).rules.countP (fun rule => !Rule.isActive rule) =
      (a.start m).rules.countP ((a.start m).skipping true).isSkipped :=
    List.countP_congr fun rule _ => by rw [isSkipped_skipping_true]
  rw [hrules, hskipped, ← hchecked] at hoff
  rw [← hchecked] at hresult
  have hnone : (a.start m).rules.countP ((a.start m).skipping false).isSkipped = 0 :=
    countP_isSkipped_of_not_skipInactive (a := (a.start m).skipping false) rfl
  refine ⟨hlog'.symm, ?_⟩
  rw [summary_audit_skipping, summary_audit_skipping, hchecked', hlog',
    count_results_active hresult .doesNotApply, count_results_active hresult .success,
    count_results_active hresult .failure, hoff, hnone]
  rfl

/-- An auditor with three rules, two of which are off where the framework does not know static classes.
It checks types at the same time, and its limit leaves room for the findings on one type. -/
def partlyOff : Auditor (StaticCandidate ⊕ FixedRule) :=
  { limited with
    policy := { limited.policy with limit := some 3, parallel := true }
    rules := [.inl .initial, .inr twofold, .inl ⟨true⟩] }

theorem audit_skipping_partlyOff :
    (∀ rule ∈ (partlyOff.start ⟨"App", .v1_1, 0⟩).rules, Rule.Silent rule) ∧
      ((partlyOff.skipping true).audit .linked ⟨"App", .v1_1, 0⟩ overtaking).1.summary =
        ⟨"App", 3, 3, 2, 0, 1, 2, 2⟩ ∧
      ((partlyOff.skipping false).audit .linked ⟨"App", .v1_1, 0⟩ overtaking).1.summary =
        ⟨"App", 3, 3, 0, 6, 1, 2, 2⟩ := by
  have hsilent : ∀ rule ∈ (partlyOff.start ⟨"App", .v1_1, 0⟩).rules, Rule.Silent rule := by
    rintro (rule | rule) -
    · exact rule.silent.inl
    · exact rule.silent.inr
  have hskipped : ((partlyOff.skipping true).audit .linked ⟨"App", .v1_1, 0⟩ overtaking).1.summary =
      ⟨"App", 3, 3, 2, 0, 1, 2, 2⟩ := by
    decide +kernel
  refine ⟨hsilent, hskipped, ?_⟩
  rw [(audit_skipping hsilent .linked overtaking).2, hskipped]
  rfl

end Auditor

end ModuleAudit
