import ModuleAudit.Auditor
import ModuleAudit.Proofs.BaseChain
import ModuleAudit.StaticCandidate

/-!
# What is kept of a stream of findings

Many rules say the same of a type whatever becomes of their findings. Checks with such rules, made one
after the other, offer the log one stream of defects, which neither the log nor the thresholds nor the
limit can change; and what the log keeps of it can be said without running anything: the defects that
pass the thresholds, as many of them as the limit leaves room for.

## Main definitions

* `Policy.keeps`: what a log of a given length keeps of a stream.
* `Remark`, `Check.Recites`: what a rule says of a type, and checks that say it whatever they are told.
* `FixedRule`: a rule with a list of remarks for each type.
* `Auditor.put`: the auditor after its log was offered a stream.

## Main statements

* `Policy.toList_foldl_record`: a log that is offered a stream, one defect after the other, keeps just
  what `Policy.keeps` says.
* `Auditor.checkAll_of_recites`: what checks with such rules report, and what becomes of the auditor.
-/

namespace ModuleAudit

/-! ### One stream, one log -/

namespace Policy

variable {policy : Policy} {recorded : Nat} {d : Defect} {rest : List Defect}

/-- What becomes of a log when a defect is reported. -/
def record (policy : Policy) (log : DefectLog) (d : Defect) : DefectLog :=
  if policy.accepts d.severity d.confidence = true ∧ log.hasRoom policy.limit = true then log.push d
  else log

def passing (policy : Policy) (stream : List Defect) : List Defect :=
  stream.filter fun d => policy.minSeverity ≤ d.severity ∧ policy.minConfidence ≤ d.confidence

/-- What a log with so many defects recorded keeps of a stream. -/
def keeps (policy : Policy) (recorded : Nat) (stream : List Defect) : List Defect :=
  match policy.limit with
  | none => policy.passing stream
  | some n => (policy.passing stream).take (n - recorded)

theorem passing_cons (policy : Policy) (d : Defect) (rest : List Defect) :
    policy.passing (d :: rest) =
      if policy.accepts d.severity d.confidence = true then d :: policy.passing rest
      else policy.passing rest := by
  simp [passing, accepts, List.filter_cons]

theorem passing_append (policy : Policy) (stream more : List Defect) :
    policy.passing (stream ++ more) = policy.passing stream ++ policy.passing more :=
  List.filter_append stream more

theorem keeps_nil (policy : Policy) (recorded : Nat) : policy.keeps recorded [] = [] := by
  unfold keeps
  split
  · rfl
  · exact List.take_nil

theorem keeps_cons_of_accepts (haccepts : policy.accepts d.severity d.confidence = true)
    (hroom : ∀ n, policy.limit = some n → recorded < n) :
    policy.keeps recorded (d :: rest) = d :: policy.keeps (recorded + 1) rest := by
  unfold keeps
  rw [passing_cons, if_pos haccepts]
  split
  · rfl
  · next n hlimit =>
    have hsub : n - recorded = n - (recorded + 1) + 1 := by
      have := hroom n hlimit
      omega
    rw [hsub, List.take_succ_cons]

theorem keeps_cons_of_not_accepts (haccepts : ¬policy.accepts d.severity d.confidence = true) :
    policy.keeps recorded (d :: rest) = policy.keeps recorded rest := by
  unfold keeps
  rw [passing_cons, if_neg haccepts]

theorem keeps_of_full {n : Nat} (hlimit : policy.limit = some n) (hfull : n ≤ recorded)
    (stream : List Defect) : policy.keeps recorded stream = [] := by
  simp only [keeps, hlimit]
  rw [Nat.sub_eq_zero_of_le hfull, List.take_zero]

theorem keeps_of_limit_eq_none (h : policy.limit = none) (recorded : Nat) (stream : List Defect) :
    policy.keeps recorded stream = policy.passing stream := by
  rw [keeps, h]

/-- A log that is offered a stream keeps just what the policy keeps, after what it held before. -/
theorem toList_foldl_record (policy : Policy) (log : DefectLog) (stream : List Defect) :
    (stream.foldl policy.record log).toList = log.toList ++ policy.keeps log.count stream := by
  induction stream generalizing log with
  | nil => rw [List.foldl_nil, keeps_nil, List.append_nil]
  | cons d rest ih =>
    rw [List.foldl_cons, ih]
    by_cases haccepts : policy.accepts d.severity d.confidence = true
    · by_cases hroom : log.hasRoom policy.limit = true
      · rw [record, if_pos ⟨haccepts, hroom⟩, DefectLog.toList_push, DefectLog.count_push,
          keeps_cons_of_accepts haccepts (DefectLog.hasRoom_iff.mp hroom), List.append_assoc,
          List.singleton_append]
      · -- a full log stays full, so nothing is kept of the rest either
        obtain ⟨n, hlimit, hfull⟩ :=
          DefectLog.hasRoom_eq_false_iff.mp (Bool.not_eq_true _ ▸ hroom)
        rw [record, if_neg fun h => hroom h.2, keeps_of_full hlimit hfull,
          keeps_of_full hlimit hfull]
    · rw [record, if_neg fun h => haccepts h.1, keeps_cons_of_not_accepts haccepts]

/-- What is kept of a stream is known from a first part of what passes, if the log has room for it, and
has none for more unless nothing more passes. -/
theorem keeps_eq_of_passing_eq {stream found dropped : List Defect}
    (hpassing : policy.passing stream = found ++ dropped)
    (hroom : ∀ n, policy.limit = some n → recorded + found.length ≤ max n recorded)
    (hfull : dropped = [] ∨ ∃ n, policy.limit = some n ∧ n ≤ recorded + found.length) :
    policy.keeps recorded stream = found := by
  unfold keeps
  rw [hpassing]
  split
  · next hlimit =>
    rcases hfull with rfl | ⟨n, hn, -⟩
    · exact List.append_nil found
    · rw [hlimit] at hn
      cases hn
  · next n hlimit =>
    have hle := hroom n hlimit
    rcases hfull with rfl | ⟨k, hk, hfull⟩
    · rw [List.append_nil, List.take_of_length_le (by omega)]
    · obtain rfl : n = k := Option.some.inj (hlimit.symm.trans hk)
      rw [show n - recorded = found.length by omega, List.take_left]

/-- A lower limit keeps a first part of what is kept otherwise. -/
theorem keeps_limit_prefix {n : Nat} (hn : ∀ k, policy.limit = some k → n ≤ k) (recorded : Nat)
    (stream : List Defect) :
    { policy with limit := some n }.keeps recorded stream <+: policy.keeps recorded stream := by
  show (policy.passing stream).take (n - recorded) <+: policy.keeps recorded stream
  unfold keeps
  split
  · exact List.take_prefix _ _
  · next k hlimit => exact List.take_prefix_take_left (Nat.sub_le_sub_right (hn k hlimit) recorded)

/-- Higher thresholds keep those that pass them of what passes the lower ones. -/
theorem passing_raise {severity : Severity} {confidence : Confidence}
    (hseverity : policy.minSeverity ≤ severity) (hconfidence : policy.minConfidence ≤ confidence)
    (stream : List Defect) :
    { policy with minSeverity := severity, minConfidence := confidence }.passing stream =
      (policy.passing stream).filter fun d => severity ≤ d.severity ∧ confidence ≤ d.confidence := by
  unfold passing
  rw [List.filter_filter]
  refine List.filter_congr fun d _ => ?_
  rw [← Bool.decide_and, decide_eq_decide]
  refine ⟨fun h => ⟨h, ?_, ?_⟩, And.left⟩
  · exact Severity.le_trans hseverity h.1
  · exact Confidence.le_trans hconfidence h.2

end Policy

/-! ### Checks that do not listen -/

/-- What a rule says of a type. -/
structure Remark where
  target : TypeDef
  severity : Severity
  confidence : Confidence
deriving DecidableEq, Repr

def Remark.defect (rule problem : String) (r : Remark) : Defect :=
  .ofType rule problem r.target r.severity r.confidence

namespace Check

variable {α : Type} {policy : Policy} {rule problem : String} {c : Check α}
  {remarks more : List Remark}

/-- The check reports just these remarks, in this order, whatever it is told of them. -/
inductive Recites : Check α → List Remark → Prop
  | done (value : α) : Recites (.done value) []
  | report {target : TypeDef} {severity : Severity} {confidence : Confidence} {next : Bool → Check α}
      {remarks : List Remark} (rest : ∀ kept, Recites (next kept) remarks) :
      Recites (.report target severity confidence next) (⟨target, severity, confidence⟩ :: remarks)
  | askKept {next : Nat → Check α} {remarks : List Remark}
      (rest : ∀ count, Recites (next count) remarks) : Recites (.askKept next) remarks

theorem recites_currentResult : currentResult.Recites [] := .askKept fun kept => .done (resultOf kept)

def reportAll (remarks : List Remark) (c : Check α) : Check α :=
  remarks.foldr (fun r c => .report r.target r.severity r.confidence fun _ => c) c

theorem Recites.reportAll (h : c.Recites more) (remarks : List Remark) :
    (c.reportAll remarks).Recites (remarks ++ more) := by
  induction remarks with
  | nil => exact h
  | cons r rest ih => exact .report fun _ => ih

/-- Running a check that does not listen reports its remarks and offers them to the log. -/
theorem Recites.run (h : c.Recites remarks) (p : Progress) :
    (c.run policy rule problem p).2.reports.map (·.defect) =
        p.reports.map (·.defect) ++ remarks.map (·.defect rule problem) ∧
      (c.run policy rule problem p).2.log =
        (remarks.map (·.defect rule problem)).foldl policy.record p.log := by
  induction h generalizing p with
  | done value => exact ⟨(List.append_nil _).symm, rfl⟩
  | @report target severity confidence next remarks rest ih =>
    let d : Defect := .ofType rule problem target severity confidence
    have htake : (p.take policy d).2.reports.map (·.defect) = p.reports.map (·.defect) ++ [d] ∧
        (p.take policy d).2.log = policy.record p.log d := by
      rw [Progress.take_eq, Policy.record]
      split <;> simp
    obtain ⟨hreports, hlog⟩ := ih (p.take policy d).1 (p.take policy d).2
    rw [htake.1, List.append_assoc] at hreports
    rw [htake.2] at hlog
    exact ⟨hreports, hlog⟩
  | askKept rest ih => exact ih p.kept p

end Check

/-! ### Rules that do not listen -/

/-- Rules that make just these remarks on a type, whatever they are told of them. -/
def Rule.Recites {ρ : Type} [Rule ρ] (remarks : ρ → World → Module → TypeDef → List Remark) : Prop :=
  ∀ rule w m t, (Rule.check rule w m t).Recites (remarks rule w m t)

namespace StaticCandidate

/-- What the rule says of a type: that it could be declared static, or nothing. -/
def remarks (rule : StaticCandidate) (w : World) (m : Module) (t : TypeDef) : List Remark :=
  if rule.active = true ∧ concerns w m t = true ∧ t.isDeclaredStatic = false ∧
      w.classify m.registry t = .allStatic then
    [⟨t, .medium, .high⟩]
  else []

theorem recites_check (rule : StaticCandidate) (w : World) (m : Module) (t : TypeDef) :
    (rule.check w m t).Recites (rule.remarks w m t) := by
  unfold check remarks
  split
  · next hout =>
    rw [if_neg fun h => by simp [h.1, h.2.1] at hout]
    exact .done _
  · next hin =>
    simp only [Bool.or_eq_true, Bool.not_eq_true', not_or, Bool.not_eq_false] at hin
    split
    · next hstatic =>
      rw [if_neg fun h => by simp [h.2.2.1] at hstatic]
      exact .done _
    · next hstatic =>
      split
      · next hall =>
        rw [if_pos ⟨hin.1, hin.2, Bool.not_eq_true _ ▸ hstatic, hall⟩]
        exact .report fun _ => Check.recites_currentResult
      · next hnot =>
        rw [if_neg fun h => hnot h.2.2.2]
        exact Check.recites_currentResult

end StaticCandidate

/-- A rule that has a list of remarks for each type. -/
structure FixedRule where
  name : String
  problem : String
  solution : String
  suits : Framework → Bool
  active : Bool
  remarks : TypeDef → List Remark

namespace FixedRule

def start (framework : Framework) (rule : FixedRule) : FixedRule :=
  { rule with active := rule.suits framework }

def check (rule : FixedRule) (t : TypeDef) : Check CheckResult :=
  if rule.active then Check.currentResult.reportAll (rule.remarks t) else .done .doesNotApply

/-- The remarks of the rule that a check of it makes: none while it is off. -/
def spoken (rule : FixedRule) (t : TypeDef) : List Remark :=
  if rule.active then rule.remarks t else []

theorem recites_check (rule : FixedRule) (t : TypeDef) : (rule.check t).Recites (rule.spoken t) := by
  unfold check spoken
  split
  · have h := Check.recites_currentResult.reportAll (rule.remarks t)
    rwa [List.append_nil] at h
  · exact .done _

end FixedRule

instance : Rule FixedRule where
  name := FixedRule.name
  problem := FixedRule.problem
  solution := FixedRule.solution
  isActive := FixedRule.active
  start := FixedRule.start
  check rule _ _ t := rule.check t

section Sum

variable {ρ σ : Type} [Rule ρ] [Rule σ]

/-- Rules of two kinds, side by side. -/
instance : Rule (ρ ⊕ σ) where
  name := Sum.elim Rule.name Rule.name
  problem := Sum.elim Rule.problem Rule.problem
  solution := Sum.elim Rule.solution Rule.solution
  isActive := Sum.elim Rule.isActive Rule.isActive
  start framework := Sum.map (Rule.start framework) (Rule.start framework)
  check := Sum.elim Rule.check Rule.check

theorem Rule.Recites.sum {remarks : ρ → World → Module → TypeDef → List Remark}
    {more : σ → World → Module → TypeDef → List Remark} (h : Rule.Recites remarks)
    (h' : Rule.Recites more) : Rule.Recites (Sum.elim remarks more) := by
  rintro (rule | rule) w m t
  · exact h rule w m t
  · exact h' rule w m t

end Sum

/-! ### Checks one after the other -/

/-- The defects reported in a check, kept or not. -/
def Checked.reported {ρ : Type} (c : Checked ρ) : List Defect := c.reports.map (·.defect)

namespace Auditor

variable {ρ : Type} [Rule ρ]

/-- What a rule says of a type of a module, in its own name. -/
def remarksOn (remarks : ρ → World → Module → TypeDef → List Remark) (w : World) (m : Module)
    (rule : ρ) (t : TypeDef) : List Defect :=
  (remarks rule w m t).map (·.defect (Rule.name rule) (Rule.problem rule))

omit [Rule ρ] in
/-- The auditor with the same rules and the same log under another policy. -/
def under (a : Auditor ρ) (policy : Policy) : Auditor ρ := { a with policy := policy }

omit [Rule ρ] in
/-- The auditor after its log was offered a stream of defects. -/
def put (a : Auditor ρ) (stream : List Defect) : Auditor ρ :=
  { a with log := stream.foldl a.policy.record a.log }

omit [Rule ρ] in
theorem put_append (a : Auditor ρ) (stream more : List Defect) :
    a.put (stream ++ more) = (a.put stream).put more := by
  unfold put
  rw [List.foldl_append]

omit [Rule ρ] in
theorem toList_put (a : Auditor ρ) (stream : List Defect) :
    (a.put stream).log.toList = a.log.toList ++ a.policy.keeps a.log.count stream :=
  Policy.toList_foldl_record a.policy a.log stream

variable {remarks : ρ → World → Module → TypeDef → List Remark} {w : World} {m : Module}

theorem check_of_recites (hremarks : Rule.Recites remarks) (a : Auditor ρ) (rule : ρ) (w : World)
    (m : Module) (t : TypeDef) :
    (a.check rule w m t).1.reported = remarksOn remarks w m rule t ∧
      (a.check rule w m t).2 = a.put (remarksOn remarks w m rule t) := by
  obtain ⟨hreports, hlog⟩ := (hremarks rule w m t).run (.start a.log)
  exact ⟨hreports, congrArg (fun log => { a with log := log }) hlog⟩

theorem checkAll_of_recites (hremarks : Rule.Recites remarks) (a : Auditor ρ) (w : World) (m : Module)
    (agenda : List (ρ × TypeDef)) :
    (a.checkAll w m agenda).1.flatMap (·.reported) =
        agenda.flatMap (fun c => remarksOn remarks w m c.1 c.2) ∧
      (a.checkAll w m agenda).2 = a.put (agenda.flatMap fun c => remarksOn remarks w m c.1 c.2) := by
  induction agenda generalizing a with
  | nil => exact ⟨rfl, rfl⟩
  | cons c rest ih =>
    obtain ⟨hreported, hafter⟩ := check_of_recites hremarks a c.1 w m c.2
    obtain ⟨ihreported, ihafter⟩ := ih (a.check c.1 w m c.2).2
    rw [List.flatMap_cons, put_append, ← hafter, ← hreported]
    exact ⟨congrArg ((a.check c.1 w m c.2).1.reported ++ ·) ihreported, ihafter⟩

/-- A rule with two remarks on each type: one that is sure but hardly matters, and one that is grave. -/
def twofold : FixedRule where
  name := "Twofold"
  problem := "There is something about every type."
  solution := "None."
  suits _ := true
  active := false
  remarks t := [⟨t, .audit, .total⟩, ⟨t, .high, .normal⟩]

/-- An auditor with a defect in its log already, whose limit is reached among the types of a second
module. -/
def limited : Auditor (StaticCandidate ⊕ FixedRule) where
  policy := ⟨.low, .normal, some 7, false, true⟩
  rules := [.inl .initial, .inr twofold]
  log := DefectLog.empty.push ⟨"Earlier", .typeDef 9, "Gone", .high, .total, ""⟩

/-- An auditor that checks types at the same time, and whose limit is reached with the first candidate
that comes by. -/
def cramped : Auditor (StaticCandidate ⊕ FixedRule) :=
  { limited with
    policy := { limited.policy with limit := some 2, parallel := true }
    rules := [.inl .initial] }

/-- The second type of a module goes ahead of the first, and has a slot before the first comes to report
anything. -/
def overtaking : Plan := fun _ => [1, 0, 1]

end Auditor

end ModuleAudit
