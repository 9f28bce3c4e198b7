import ModuleAudit.Proofs.Accounts
import ModuleAudit.Proofs.History
import ModuleAudit.Proofs.Sorting
import ModuleAudit.Proofs.StaticCandidate

/-!
# Checks in any order

The checks of a module share one log, and with it one limit. Where rules say the same whatever becomes
of their findings, the order of the checks shows in the order of the log only, and in which findings a
limit leaves room for. How many it leaves room for is the same in any order.

## Main statements

* `Policy.length_keeps_of_perm`: as much is kept of a stream in any order.
* `Auditor.checkAll_of_limit_eq_none`: without a limit, each check says and records what it does on its
  own.
* `Auditor.checkAll_perm`: what checks say and record in two orders.
-/

namespace ModuleAudit

namespace Policy

variable {policy : Policy} {stream stream' : List Defect}

theorem passing_perm (h : stream'.Perm stream) :
    (policy.passing stream').Perm (policy.passing stream) := h.filter _

/-- Of a stream in another order as much is kept, though other findings perhaps. -/
theorem length_keeps_of_perm (h : stream'.Perm stream) (recorded : Nat) :
    (policy.keeps recorded stream').length = (policy.keeps recorded stream).length := by
  unfold keeps
  split
  · exact (passing_perm h).length_eq
  · rw [List.length_take, List.length_take, (passing_perm h).length_eq]

end Policy

namespace Auditor

section Checks

variable {ρ : Type} [Rule ρ] {remarks : ρ → World → Module → TypeDef → List Remark} {w : World}
  {m : Module} {agenda agenda' : List (ρ × TypeDef)}

/-- Without a limit, each check says and records what it does on its own. -/
theorem checkAll_of_limit_eq_none {a : Auditor ρ} (hlimit : a.policy.limit = none) (w : World)
    (m : Module) (agenda : List (ρ × TypeDef)) :
    (a.checkAll w m agenda).1 = agenda.map (fun c => (a.check c.1 w m c.2).1) ∧
      (a.checkAll w m agenda).2.log.toList =
        a.log.toList ++ agenda.flatMap fun c => (a.check c.1 w m c.2).1.found := by
  have hchecked : (a.checkAll w m agenda).1 = agenda.map fun c => (a.check c.1 w m c.2).1 := by
    induction agenda generalizing a with
    | nil => rfl
    | cons c rest ih =>
      -- the rest is checked over the log that the first check leaves behind
      let after := (a.check c.1 w m c.2).2
      have hrest : (after.checkAll w m rest).1 = rest.map fun d => (a.check d.1 w m d.2).1 := by
        rw [ih (a := after) hlimit]
        exact List.map_congr_left fun d _ => check_withLog hlimit d.1 w m d.2 a.log after.log
      rw [checkAll_cons, List.map_cons, hrest]
  refine ⟨hchecked, ?_⟩
  rw [(a.adds_checkAll w m agenda).toList_eq, hchecked, List.flatMap_map]

theorem toList_log_checkAll (hremarks : Rule.Recites remarks) (a : Auditor ρ) (w : World)
    (m : Module) (agenda : List (ρ × TypeDef)) :
    (a.checkAll w m agenda).2.log.toList = a.log.toList ++
      a.policy.keeps a.log.count (agenda.flatMap fun c => remarksOn remarks w m c.1 c.2) := by
  rw [(checkAll_of_recites hremarks a w m agenda).2, toList_put]

/-- As many findings are recorded in any order, though other ones perhaps. -/
theorem count_log_checkAll_of_perm (hremarks : Rule.Recites remarks) (a : Auditor ρ)
    (hperm : agenda'.Perm agenda) :
    (a.checkAll w m agenda').2.log.count = (a.checkAll w m agenda).2.log.count := by
  rw [← DefectLog.length_toList, ← DefectLog.length_toList, toList_log_checkAll hremarks,
    toList_log_checkAll hremarks, List.length_append, List.length_append,
    Policy.length_keeps_of_perm (hperm.flatMap_right _)]

/-- Where all checks are candid and report once at most, there is a failure for each defect recorded. -/
theorem count_failure_of_candid {a : Auditor ρ}
    (h : ∀ c ∈ (a.checkAll w m agenda).1, c.Candid ∧ c.reports.length ≤ 1) :
    a.log.count + ((a.checkAll w m agenda).1.map (·.result)).count .failure =
      (a.checkAll w m agenda).2.log.count := by
  obtain ⟨-, -, hfailures⟩ := failures_of_candid fun c hc => (h c hc).1
  rw [hfailures fun c hc => (h c hc).2, ← DefectLog.length_toList, ← DefectLog.length_toList,
    (a.adds_checkAll w m agenda).toList_eq, List.length_append]

end Checks

section StaticCandidate

variable {σ : Type} [Rule σ] {remarks : σ → World → Module → TypeDef → List Remark} {w : World}
  {m : Module} {agenda agenda' : List ((StaticCandidate ⊕ σ) × TypeDef)}

/-- In a module, findings of the rule for static classes about one token are about one type. -/
theorem eq_of_sortKey_finding_eq {t u : TypeDef} (ht : t ∈ m.types w) (hu : u ∈ m.types w)
    (h : (StaticCandidate.finding t).sortKey = (StaticCandidate.finding u).sortKey) : t = u := by
  have htoken : t.token = u.token := congrArg Token.mk (UInt32.toNat_inj.mp (List.cons.inj h).1)
  have hget := StaticCandidate.get?_of_mem_types hu
  rw [← htoken, StaticCandidate.get?_of_mem_types ht] at hget
  exact Option.some.inj hget

/-- All that the rule for static classes reports of a type is one finding. -/
theorem eq_finding_of_mem_remarksOn {rule : StaticCandidate} {t : TypeDef} {d : Defect}
    (hd : d ∈ remarksOn (Sum.elim StaticCandidate.remarks remarks) w m (.inl rule) t) :
    d = StaticCandidate.finding t := by
  obtain ⟨r, hr, rfl⟩ := List.mem_map.mp hd
  have hmem : r ∈ rule.remarks w m t := hr
  rw [StaticCandidate.remarks] at hmem
  split at hmem
  · rw [List.mem_singleton.mp hmem]
    rfl
  · exact absurd hmem List.not_mem_nil

theorem exists_eq_finding_of_mem_flatMap
    (hshipped : ∀ c ∈ agenda, c.1.isLeft = true ∧ c.2 ∈ m.types w) {d : Defect}
    (hd : d ∈ agenda.flatMap fun c =>
      remarksOn (Sum.elim StaticCandidate.remarks remarks) w m c.1 c.2) :
    ∃ t ∈ m.types w, d = StaticCandidate.finding t := by
  obtain ⟨⟨rule, t⟩, hc, hd⟩ := List.mem_flatMap.mp hd
  obtain ⟨hleft, ht⟩ := hshipped _ hc
  obtain ⟨rule, rfl⟩ := Sum.isLeft_iff.mp hleft
  exact ⟨t, ht, eq_finding_of_mem_remarksOn hd⟩

/-- The order in which the rule for static classes checks types does not show in the summary: what it
finds of one type is always the same, and findings about other types are sorted. -/
theorem summary_checkAll_of_perm (hremarks : Rule.Recites remarks)
    {a : Auditor (StaticCandidate ⊕ σ)} (hlimit : a.policy.limit = none)
    (hshipped : ∀ c ∈ agenda, c.1.isLeft = true ∧ c.2 ∈ m.types w) (hperm : agenda'.Perm agenda) :
    (a.checkAll w m agenda').2.log.summary = (a.checkAll w m agenda).2.log.summary := by
  have hrecites := Rule.Recites.sum StaticCandidate.recites_check hremarks
  refine DefectLog.summary_congr fun key => ?_
  rw [toList_log_checkAll hrecites, toList_log_checkAll hrecites,
    Policy.keeps_of_limit_eq_none hlimit, Policy.keeps_of_limit_eq_none hlimit,
    List.filter_append, List.filter_append]
  congr 1
  refine Defect.filter_sortKey_eq_of_perm (Policy.passing_perm (hperm.flatMap_right _)) ?_ key
  intro d hd e he hkey
  obtain ⟨t, ht, rfl⟩ := exists_eq_finding_of_mem_flatMap hshipped (List.mem_filter.mp hd).1
  obtain ⟨u, hu, rfl⟩ := exists_eq_finding_of_mem_flatMap hshipped (List.mem_filter.mp he).1
  rw [eq_of_sortKey_finding_eq ht hu hkey]

/-- Checks of a module with rules that do not listen, in two orders and over the same log. Without a
limit each of them says and records the same in both orders, namely what it does on its own, so that the
logs differ in the order of their entries only. With any limit as many defects are recorded, and as many
checks fail if each of them is candid and reports once at most. With the rule for static classes alone,
and without a limit, the two summaries are the same text. -/
theorem checkAll_perm (hremarks : Rule.Recites remarks) (a : Auditor (StaticCandidate ⊕ σ))
    (w : World) (m : Module) (hperm : agenda'.Perm agenda) :
    (a.policy.limit = none →
      (a.checkAll w m agenda).1 = agenda.map (fun c => (a.check c.1 w m c.2).1) ∧
      (a.checkAll w m agenda').1 = agenda'.map (fun c => (a.check c.1 w m c.2).1) ∧
      (a.checkAll w m agenda).2.log.toList =
        a.log.toList ++ agenda.flatMap (fun c => (a.check c.1 w m c.2).1.found) ∧
      (a.checkAll w m agenda').2.log.toList.Perm (a.checkAll w m agenda).2.log.toList) ∧
    (a.checkAll w m agenda').2.log.count = (a.checkAll w m agenda).2.log.count ∧
    ((∀ c ∈ (a.checkAll w m agenda).1 ++ (a.checkAll w m agenda').1,
        c.Candid ∧ c.reports.length ≤ 1) →
      ((a.checkAll w m agenda').1.map (·.result)).count .failure =
        ((a.checkAll w m agenda).1.map (·.result)).count .failure) ∧
    (a.policy.limit = none → (∀ c ∈ agenda, c.1.isLeft = true ∧ c.2 ∈ m.types w) →
      (a.checkAll w m agenda').2.log.summary = (a.checkAll w m agenda).2.log.summary) := by
  have hcount : (a.checkAll w m agenda').2.log.count = (a.checkAll w m agenda).2.log.count :=
    count_log_checkAll_of_perm (.sum StaticCandidate.recites_check hremarks) a hperm
  refine ⟨fun hlimit => ?_, hcount, fun hcandid => ?_, fun hlimit hshipped =>
    summary_checkAll_of_perm hremarks hlimit hshipped hperm⟩
  · obtain ⟨hchecked, hlog⟩ := checkAll_of_limit_eq_none hlimit w m agenda
    obtain ⟨hchecked', hlog'⟩ := checkAll_of_limit_eq_none hlimit w m agenda'
    refine ⟨hchecked, hchecked', hlog, ?_⟩
    rw [hlog, hlog']
    exact (hperm.flatMap_right _).append_left a.log.toList
  · have hfailures := count_failure_of_candid fun c hc => hcandid c (List.mem_append_left _ hc)
    have hfailures' := count_failure_of_candid fun c hc => hcandid c (List.mem_append_right _ hc)
    omega

/-- The rule for static classes on all types of the application, and then on all of them again. -/
def twice : List ((StaticCandidate ⊕ FixedRule) × TypeDef) :=
  (World.linked.types 0 ++ World.linked.types 0).map (.inl ⟨true⟩, ·)

/-- An auditor with a defect in its log already, under some limit. -/
def bounded (limit : Option Nat) : Auditor (StaticCandidate ⊕ FixedRule) :=
  limited.under { limited.policy with limit := limit }

theorem checkAll_perm_twice :
    Rule.Recites (fun (rule : FixedRule) _ _ => rule.spoken) ∧
    twice.reverse.Perm twice ∧
    (∀ c ∈ twice, c.1.isLeft = true ∧ c.2 ∈ Module.types ⟨"App", .v4_0, 0⟩ .linked) ∧
    (∀ c ∈ ((bounded (some 4)).checkAll .linked ⟨"App", .v4_0, 0⟩ twice).1 ++
        ((bounded (some 4)).checkAll .linked ⟨"App", .v4_0, 0⟩ twice.reverse).1,
      c.Candid ∧ c.reports.length ≤ 1) ∧
    ((bounded none).checkAll .linked ⟨"App", .v4_0, 0⟩ twice.reverse).2.log.summary =
      ((bounded none).checkAll .linked ⟨"App", .v4_0, 0⟩ twice).2.log.summary ∧
    ((bounded (some 4)).checkAll .linked ⟨"App", .v4_0, 0⟩ twice).2.log.toList.map (·.token) =
      [.typeDef 9, .typeDef 1, .typeDef 2, .typeDef 1] ∧
    ((bounded (some 4)).checkAll .linked ⟨"App", .v4_0, 0⟩ twice.reverse).2.log.toList.map (·.token) =
      [.typeDef 9, .typeDef 2, .typeDef 1, .typeDef 2] ∧
    (((bounded (some 4)).checkAll .linked ⟨"App", .v4_0, 0⟩ twice.reverse).1.map (·.result)).count
      .failure = 3 := by
  have hremarks : Rule.Recites (fun (rule : FixedRule) _ _ => rule.spoken) :=
    fun rule _ _ t => rule.recites_check t
  have hperm : twice.reverse.Perm twice := List.reverse_perm twice
  have hshipped : ∀ c ∈ twice, c.1.isLeft = true ∧ c.2 ∈ Module.types ⟨"App", .v4_0, 0⟩ .linked := by
    intro c hc
    obtain ⟨t, ht, rfl⟩ := List.mem_map.mp hc
    exact ⟨rfl, (List.mem_append.mp ht).elim id id⟩
  have hrules : ∀ rule : StaticCandidate ⊕ FixedRule, Rule.Candid rule := by
    rintro (rule | rule)
    · exact rule.candid.inl
    · exact rule.candid.inr
  have hcandid : ∀ c ∈ ((bounded (some 4)).checkAll .linked ⟨"App", .v4_0, 0⟩ twice).1 ++
      ((bounded (some 4)).checkAll .linked ⟨"App", .v4_0, 0⟩ twice.reverse).1,
      c.Candid ∧ c.reports.length ≤ 1 := by
    intro c hc
    refine ⟨(List.mem_append.mp hc).elim (candid_checkAll (fun c _ => hrules c.1) _ _ _ c)
      (candid_checkAll (fun c _ => hrules c.1) _ _ _ c), ?_⟩
    revert c
    decide +kernel
  obtain ⟨-, -, -, hsummary⟩ := checkAll_perm hremarks (bounded none) .linked ⟨"App", .v4_0, 0⟩ hperm
  obtain ⟨-, -, hfailures, -⟩ :=
    checkAll_perm hremarks (bounded (some 4)) .linked ⟨"App", .v4_0, 0⟩ hperm
  refine ⟨hremarks, hperm, hshipped, hcandid, hsummary rfl hshipped, by decide +kernel,
    by decide +kernel, ?_⟩
  rw [hfailures hcandid]
  decide +kernel

end StaticCandidate

end Auditor

end ModuleAudit
