import Mathlib.Data.List.Forall2
import ModuleAudit.Proofs.Round
import ModuleAudit.Proofs.Stream

/-!
# Audits with rules that do not listen

Audits with rules that say the same whatever becomes of their findings offer the log one stream of
defects. Where the types of a module are checked one after the other, the stream is known from the rules
and the types. Where they are checked at the same time, it is not known in which order the types come by;
but there is such a stream, and the log keeps of it what it would keep if one defect after the other were
offered to it.

## Main definitions

* `Lane.offered`, `Lane.taken`: what a check has offered to the log, and what has a slot there.
* `Round.Recital`: how far the checks of a round have come with their remarks.
* `Auditor.audits`: audits of one module after the other.
* `Auditor.stream`, `Auditor.Streams`: all defects reported in audits, by module, rule and type, and the
  orders in which they may come by.

## Main statements

* `Auditor.exists_put_checkTogether`: checks made at the same time offer the log an interleaving of the
  remarks on each type.
* `Auditor.toList_audits`: the log after any audits, and what a lower limit or a higher threshold
  makes of it.
-/

namespace ModuleAudit

/-! ### Checks at the same time -/

namespace Lane

variable {policy : Policy} {rule problem : String} {free : Bool} {l l' : Lane} {written : Option Defect}

/-- The defects that the check has offered to the log so far. -/
def offered (l : Lane) : List Defect := l.reports.map (·.defect) ++ l.held.toList

/-- Those of them that are written, and the one that has a slot. -/
def taken (l : Lane) : List Defect := l.found ++ l.held.toList

/-- The check has these remarks left to make. What it has offered so far was taken if it passes the
thresholds, or else the first part of that, and then there is no slot left. -/
structure Recital (policy : Policy) (rule problem : String) (free : Bool) (remarks : List Remark)
    (l : Lane) : Prop where
  left : ∃ rest, l.rest.Recites rest ∧
    l.offered ++ rest.map (·.defect rule problem) = remarks.map (·.defect rule problem)
  taken : l.taken <+: policy.passing l.offered
  complete : free = true → l.taken = policy.passing l.offered

/-- The check stays where it was if slots run out. -/
theorem Recital.mono {remarks : List Remark} {free' : Bool}
    (h : Recital policy rule problem free remarks l) (hfree : free' = true → free = true) :
    Recital policy rule problem free' remarks l :=
  { h with complete := fun hslot => h.complete (hfree hslot) }

theorem Recital.step {remarks : List Remark} (h : Recital policy rule problem free remarks l)
    (hstep : Step policy rule problem free l written l') :
    Recital policy rule problem free remarks l' := by
  obtain ⟨⟨rest, hrecites, hleft⟩, htaken, hcomplete⟩ := h
  cases hstep with
  | @write d held =>
    -- what is written had its slot before
    have hoffered : l.write.offered = l.offered := by
      simp [offered, write_of_held_eq_some held, held]
    have hsame : l.write.taken = l.taken := by
      simp [Lane.taken, found, write_of_held_eq_some held, held, Report.found_concat]
    refine ⟨⟨rest, ?_, ?_⟩, ?_, ?_⟩
    · rwa [rest_write]
    · rwa [hoffered]
    · rwa [hoffered, hsame]
    · rwa [hoffered, hsame]
  | @ask next held hrest =>
    rw [hrest] at hrecites
    cases hrecites with
    | askKept hnext => exact ⟨⟨rest, hnext l.kept, hleft⟩, htaken, hcomplete⟩
  | @reserve target severity confidence next held hrest accepts slot =>
    rw [hrest] at hrecites
    let d : Defect := .ofType rule problem target severity confidence
    let reserved : Lane := { l with held := some d, rest := next true }
    have hoffered : reserved.offered = l.offered ++ [d] := by simp [reserved, offered, held]
    have hpassing : reserved.taken = policy.passing reserved.offered := by
      have haccepts : policy.accepts d.severity d.confidence = true := accepts
      have hd : policy.passing [d] = [d] := by
        rw [Policy.passing_cons, if_pos haccepts]
        rfl
      rw [hoffered, Policy.passing_append, ← hcomplete slot, hd]
      simp [reserved, Lane.taken, found, held]
    cases hrecites with
    | @report _ _ _ _ rest hnext =>
      refine ⟨⟨rest, hnext true, ?_⟩, hpassing ▸ List.prefix_rfl, fun _ => hpassing⟩
      rw [← hleft, hoffered, List.append_assoc]
      rfl
  | @refuse target severity confidence next held hrest refused =>
    rw [hrest] at hrecites
    let d : Defect := .ofType rule problem target severity confidence
    let after : Lane := { l with rest := next false, reports := l.reports ++ [⟨d, false⟩] }
    have hoffered : after.offered = l.offered ++ [d] := by simp [after, offered, held]
    have hsame : after.taken = l.taken := by
      simp [after, Lane.taken, found, held, Report.found_concat]
    cases hrecites with
    | @report _ _ _ _ rest hnext =>
      refine ⟨⟨rest, hnext false, ?_⟩, ?_, fun hslot => ?_⟩
      · rw [← hleft, hoffered, List.append_assoc]
        rfl
      · rw [hoffered, hsame, Policy.passing_append]
        exact htaken.trans (List.prefix_append _ _)
      · -- a finding that is refused although there is a slot does not pass the thresholds
        have haccepts : ¬policy.accepts d.severity d.confidence = true := fun haccepts => by
          rw [refused haccepts] at hslot
          cases hslot
        rw [hoffered, hsame, Policy.passing_append, Policy.passing_cons, if_neg haccepts,
          hcomplete hslot]
        exact (List.append_nil _).symm

/-- At its end a check has offered all its remarks to the log. -/
theorem Recital.offered_eq {remarks : List Remark} {value : CheckResult}
    (h : Recital policy rule problem free remarks l) (hrest : l.rest = .done value) :
    l.offered = remarks.map (·.defect rule problem) := by
  obtain ⟨rest, hrecites, hleft⟩ := h.left
  rw [hrest] at hrecites
  cases hrecites
  rwa [List.map_nil, List.append_nil] at hleft

theorem map_reported_of_ends {ρ : Type} {rule : ρ} {ended : List Lane} {checked : List (Checked ρ)}
    (h : List.Forall₂ (Ends rule) ended checked) :
    checked.map (·.reported) = ended.map (·.offered) := by
  refine map_of_ends h fun l _ c hends => ?_
  rw [Checked.reported, offered, hends.reports, hends.held]
  exact (List.append_nil _).symm

end Lane

namespace Round

variable {policy : Policy} {rule problem : String} {r r' : Round}

/-- Once there is no slot left, there never is one again. -/
theorem hasSlot_of_step (h : Step policy rule problem r r') (limit : Option Nat)
    (hslot : r'.hasSlot limit = true) : r.hasSlot limit = true := by
  have hle : r.reserved ≤ r'.reserved := by
    have hreserved := reserved_of_step h
    omega
  rw [hasSlot_iff] at hslot ⊢
  exact fun n hlimit => Nat.lt_of_le_of_lt hle (hslot n hlimit)

/-- The checks of a round make their remarks, each as far as it has come. -/
def Recital (policy : Policy) (rule problem : String) (remarks : TypeDef → List Remark) (r : Round) :
    Prop :=
  ∀ l ∈ r.lanes, l.Recital policy rule problem (r.hasSlot policy.limit) (remarks l.type)

theorem Recital.steps {remarks : TypeDef → List Remark} (h : Recital policy rule problem remarks r)
    (hsteps : Steps policy rule problem r r') : Recital policy rule problem remarks r' := by
  induction hsteps with
  | refl => exact h
  | tail _ hlast ih =>
    have hslot := hasSlot_of_step hlast policy.limit
    obtain ⟨hl⟩ := hlast
    intro x hx
    refine Lane.Recital.mono ?_ hslot
    rcases List.mem_append.mp hx with hx | hx
    · exact ih x (List.mem_append_left _ hx)
    · rcases List.mem_cons.mp hx with rfl | hx
      · rw [hl.goes.type]
        exact (ih _ (List.mem_append_right _ List.mem_cons_self)).step hl
      · exact ih x (List.mem_append_right _ (List.mem_cons_of_mem _ hx))

end Round

namespace Auditor

variable {ρ : Type} [Rule ρ] {remarks : ρ → World → Module → TypeDef → List Remark}

theorem recital_start (hremarks : Rule.Recites remarks) (policy : Policy) (rule : ρ) (w : World)
    (m : Module) (log : DefectLog) (types : List TypeDef) :
    Round.Recital policy (Rule.name rule) (Rule.problem rule) (remarks rule w m)
      (.start rule w m log types) := by
  intro l hl
  obtain ⟨t, -, rfl⟩ := List.mem_map.mp hl
  exact ⟨⟨_, hremarks rule w m t, rfl⟩, List.nil_prefix, fun _ => rfl⟩

/-- Where all checks of a round have come to their ends, an interleaving of what they have offered to the
log leaves as much of it there as the log has grown by. -/
theorem exists_keeps_of_ended {policy : Policy} {rule problem : String}
    {said : TypeDef → List Remark} {log : DefectLog} {found : List Defect} {r : Round}
    (hgrown : r.Grown policy log found) (hrecital : r.Recital policy rule problem said)
    (hheld : ∀ l ∈ r.lanes, l.held = none) :
    ∃ part, Interleaves (r.lanes.map (·.offered)) part ∧ policy.keeps log.count part = found := by
  -- what is left of the offers of each check once the limit is reached
  let dropped : Lane → List Defect := fun l => (policy.passing l.offered).drop l.found.length
  have htaken : ∀ l ∈ r.lanes, l.taken = l.found := by
    intro l hl
    rw [Lane.taken, hheld l hl]
    exact List.append_nil _
  have hpassing : ∀ l ∈ r.lanes, l.found ++ dropped l = policy.passing l.offered := by
    intro l hl
    have hprefix := (hrecital l hl).taken
    rw [htaken l hl] at hprefix
    exact List.prefix_iff_eq_append.mp hprefix
  have hmerged : Interleaves ((r.lanes.map (·.offered)).map policy.passing)
      (found ++ r.lanes.flatMap dropped) := by
    have hsplit : (r.lanes.map (·.offered)).map policy.passing =
        [] ++ r.lanes.map fun l => l.found ++ dropped l := by
      rw [List.map_map]
      exact (List.map_congr_left hpassing).symm
    rw [hsplit]
    exact Interleaves.append_map dropped hgrown.interleaves
  obtain ⟨part, hpart, hkept⟩ := hmerged.exists_of_filter
  have hcount : r.log.count = log.count + found.length := by
    rw [← DefectLog.length_toList, hgrown.toList_eq, List.length_append, DefectLog.length_toList]
  have hslots := Round.hasSlot_of_held_eq_none r.log hheld policy.limit
  refine ⟨part, hpart, Policy.keeps_eq_of_passing_eq hkept (fun n hlimit => ?_) ?_⟩
  · have hbounded := hgrown.bounded n hlimit
    have hlog : r.log.reserved = r.log.count := r.log.reserved_eq
    rw [Round.reserved] at hbounded
    omega
  · by_cases hslot : r.hasSlot policy.limit = true
    · refine .inl (List.flatMap_eq_nil_iff.mpr fun l hl => ?_)
      have hcomplete := (hrecital l hl).complete hslot
      rw [htaken l hl] at hcomplete
      show (policy.passing l.offered).drop l.found.length = []
      rw [← hcomplete, List.drop_length]
    · obtain ⟨n, hlimit, hfull⟩ := DefectLog.hasRoom_eq_false_iff.mp
        (hslots.symm.trans (Bool.eq_false_iff.mpr hslot))
      exact .inr ⟨n, hlimit, by omega⟩

/-- Checks made at the same time report on each type what they do otherwise, and offer the log an
interleaving of that. -/
theorem exists_put_checkTogether (hremarks : Rule.Recites remarks) (a : Auditor ρ) (rule : ρ)
    (w : World) (m : Module) (types : List TypeDef) (turns : List Nat) :
    ∃ part, Interleaves (types.map (remarksOn remarks w m rule)) part ∧
      (a.checkTogether rule w m types turns).1.flatMap (·.reported) =
        types.flatMap (remarksOn remarks w m rule) ∧
      (a.checkTogether rule w m types turns).2 = a.put part := by
  obtain ⟨ended, hsteps, hends⟩ := a.exists_steps_checkTogether rule w m types turns
  obtain ⟨found, hgrown⟩ := hsteps.exists_grown
  have hrecital := (recital_start hremarks a.policy rule w m a.log types).steps hsteps
  have hdone := Lane.done_of_ends hends
  have hoffered : ended.map (·.offered) = types.map (remarksOn remarks w m rule) := by
    have htypes : ended.map (·.type) = types := hsteps.map_type_start
    rw [← htypes, List.map_map]
    refine List.map_congr_left fun l hl => ?_
    obtain ⟨-, value, hrest⟩ := hdone l hl
    exact (hrecital l hl).offered_eq hrest
  obtain ⟨part, hpart, hkeeps⟩ :=
    exists_keeps_of_ended hgrown hrecital fun l hl => (hdone l hl).1
  refine ⟨part, hoffered ▸ hpart, ?_, ?_⟩
  · rw [List.flatMap_def, Lane.map_reported_of_ends hends, hoffered, ← List.flatMap_def]
  · have hlog : (a.checkTogether rule w m types turns).2.log = (a.put part).log := by
      refine DefectLog.eq_of_toList_eq ?_
      rw [toList_put, hkeeps]
      exact hgrown.toList_eq
    rw [checkTogether_snd, hlog]
    rfl

/-! ### Audits -/

/-- Audits of one module after the other, each in the world as it is then: the outcome of each, and
the auditor after the last. -/
def audits (a : Auditor ρ) : List (World × Module × Plan) → List (Audited ρ) × Auditor ρ
  | [] => ([], a)
  | (w, m, plan) :: rest =>
    let (audited, a) := a.audit w m plan
    let (others, a) := a.audits rest
    (audited :: others, a)

/-- All defects reported in audits with the rules: module by module, rule by rule, those left out that
are off where such rules are skipped, type by type, and remark by remark. -/
def stream (remarks : ρ → World → Module → TypeDef → List Remark) (skipInactive : Bool) :
    List ρ → List (World × Module × Plan) → List Defect
  | _, [] => []
  | rules, (w, m, _) :: rest =>
    let started := rules.map (Rule.start m.framework)
    (started.filter fun rule => Rule.isActive rule || !skipInactive).flatMap
        (fun rule => (m.types w).flatMap (remarksOn remarks w m rule)) ++
      stream remarks skipInactive started rest

/-- How the reports of one rule may come by: type by type, or, where types are checked at the same time,
in any order that keeps the reports on each type in theirs. -/
def ComesBy (parallel : Bool) (parts : List (List Defect)) (part : List Defect) : Prop :=
  if parallel then Interleaves parts part else part = parts.flatten

theorem comesBy_false {parts : List (List Defect)} {part : List Defect} :
    ComesBy false parts part ↔ part = parts.flatten := Iff.rfl

theorem ComesBy.perm_flatten {parallel : Bool} {parts : List (List Defect)} {part : List Defect}
    (h : ComesBy parallel parts part) : part.Perm parts.flatten := by
  cases parallel with
  | false => rw [comesBy_false.mp h]
  | true => exact Interleaves.perm_flatten h

/-- The orders in which all defects may come by that are reported in audits with the rules: module by
module, rule by rule, and the reports of each rule as they may come by. -/
inductive Streams (remarks : ρ → World → Module → TypeDef → List Remark)
    (parallel skipInactive : Bool) : List ρ → List (World × Module × Plan) → List Defect → Prop
  | nil (rules : List ρ) : Streams remarks parallel skipInactive rules [] []
  | cons {rules : List ρ} {w : World} {m : Module} (plan : Plan) {rest : List (World × Module × Plan)}
      {rounds : List (List Defect)} {more : List Defect}
      (hrounds : List.Forall₂
        (fun rule => ComesBy parallel ((m.types w).map (remarksOn remarks w m rule)))
        ((rules.map (Rule.start m.framework)).filter fun rule => Rule.isActive rule || !skipInactive)
        rounds)
      (hmore : Streams remarks parallel skipInactive (rules.map (Rule.start m.framework)) rest more) :
      Streams remarks parallel skipInactive rules ((w, m, plan) :: rest) (rounds.flatten ++ more)

theorem exists_put_checkTypes (hremarks : Rule.Recites remarks) (a : Auditor ρ) (rule : ρ) (w : World)
    (m : Module) (turns : List Nat) :
    ∃ part, ComesBy a.policy.parallel ((m.types w).map (remarksOn remarks w m rule)) part ∧
      (a.checkTypes rule w m turns).1.flatMap (·.reported) =
        (m.types w).flatMap (remarksOn remarks w m rule) ∧
      (a.checkTypes rule w m turns).2 = a.put part := by
  unfold checkTypes ComesBy
  split
  · exact exists_put_checkTogether hremarks a rule w m (m.types w) turns
  · have hchecks := checkAll_of_recites hremarks a w m ((m.types w).map (rule, ·))
    rw [List.flatMap_map] at hchecks
    exact ⟨_, List.flatMap_def, hchecks⟩

theorem exists_put_checkRules (hremarks : Rule.Recites remarks) (a : Auditor ρ) (w : World) (m : Module)
    (agenda : List (ρ × List Nat)) :
    ∃ rounds, List.Forall₂ (fun c : ρ × List Nat =>
        ComesBy a.policy.parallel ((m.types w).map (remarksOn remarks w m c.1))) agenda rounds ∧
      (a.checkRules w m agenda).1.flatMap (·.reported) =
        agenda.flatMap (fun c => (m.types w).flatMap (remarksOn remarks w m c.1)) ∧
      (a.checkRules w m agenda).2 = a.put rounds.flatten := by
  induction agenda generalizing a with
  | nil => exact ⟨[], .nil, rfl, rfl⟩
  | cons c rest ih =>
    obtain ⟨part, hpart, hreported, hafter⟩ := exists_put_checkTypes hremarks a c.1 w m c.2
    obtain ⟨rounds, hrounds, hrest, hlast⟩ := ih (a.put part)
    refine ⟨part :: rounds, .cons hpart hrounds, ?_, ?_⟩
    · rw [checkRules_cons, List.flatMap_append, hreported, hafter, hrest, List.flatMap_cons]
    · rw [checkRules_cons, hafter, List.flatten_cons, put_append]
      exact hlast

theorem map_fst_agenda_eq (a : Auditor ρ) (plan : Plan) : (a.agenda plan).map (·.1) =
    a.rules.filter fun rule => Rule.isActive rule || !a.policy.skipInactive := by
  rw [map_fst_agenda]
  refine List.filter_congr fun rule _ => ?_
  rw [isSkipped, Bool.not_and, Bool.not_not]

/-- Audits report on each type what the rules have to say, and offer it to the log in one of the orders
in which it may come by. -/
theorem exists_put_audits (hremarks : Rule.Recites remarks) (a : Auditor ρ)
    (calls : List (World × Module × Plan)) :
    ∃ s, Streams remarks a.policy.parallel a.policy.skipInactive a.rules calls s ∧
      (a.audits calls).1.flatMap (fun audited => audited.checked.flatMap (·.reported)) =
        stream remarks a.policy.skipInactive a.rules calls ∧
      (a.audits calls).2.log = (a.put s).log := by
  induction calls generalizing a with
  | nil => exact ⟨[], .nil a.rules, rfl, rfl⟩
  | cons call rest ih =>
    obtain ⟨w, m, plan⟩ := call
    have hrules := (a.start m).map_fst_agenda_eq plan
    obtain ⟨rounds, hrounds, hreported, hafter⟩ :
        ∃ rounds, _ ∧ (a.audit w m plan).1.checked.flatMap (·.reported) = _ ∧
          (a.audit w m plan).2 = _ :=
      exists_put_checkRules hremarks (a.start m) w m ((a.start m).agenda plan)
    rw [← List.flatMap_map Prod.fst fun rule => (m.types w).flatMap (remarksOn remarks w m rule),
      hrules] at hreported
    have hstarted : List.Forall₂ (fun rule => ComesBy a.policy.parallel
        ((m.types w).map (remarksOn remarks w m rule))) (((a.start m).agenda plan).map (·.1)) rounds :=
      List.forall₂_map_left_iff.mpr hrounds
    rw [hrules] at hstarted
    obtain ⟨more, hmore, hrest, hlast⟩ := ih ((a.start m).put rounds.flatten)
    refine ⟨rounds.flatten ++ more, .cons plan hstarted hmore, ?_, ?_⟩
    · show (a.audit w m plan).1.checked.flatMap (·.reported) ++
        ((a.audit w m plan).2.audits rest).1.flatMap
          (fun audited => audited.checked.flatMap (·.reported)) = _
      rw [hreported, hafter, hrest, stream]
      rfl
    · show ((a.audit w m plan).2.audits rest).2.log = _
      rw [hafter, hlast, put_append]
      rfl

/-- Where types are checked one after the other, there is one order only. -/
theorem Streams.eq_stream {skipInactive : Bool} {rules : List ρ} {calls : List (World × Module × Plan)}
    {s : List Defect} (h : Streams remarks false skipInactive rules calls s) :
    s = stream remarks skipInactive rules calls := by
  induction h with
  | nil rules => rfl
  | @cons rules w m plan rest rounds more hrounds hmore ih =>
    rw [stream, ih]
    congr 1
    generalize (rules.map (Rule.start m.framework)).filter _ = started at hrounds
    induction hrounds with
    | nil => rfl
    | cons hpart _ ihrounds =>
      rw [List.flatten_cons, List.flatMap_cons, ihrounds]
      exact congrArg (· ++ _) hpart

/-- Audits with rules that do not listen report on each type what the rules have to say of it. They offer
it to the log rule by rule, and for each rule type by type, or, where types are checked at the same time,
in some order that keeps the reports on each type in theirs. The log keeps of that stream what the policy
says: the defects that pass the thresholds, as far as the limit leaves room. Where types are checked one
after the other, the log under a lower limit is a first part of this one; without a limit, higher
thresholds leave those findings that pass them. -/
theorem toList_audits (hremarks : Rule.Recites remarks) (a : Auditor ρ)
    (calls : List (World × Module × Plan)) :
    (a.audits calls).1.flatMap (fun audited => audited.checked.flatMap (·.reported)) =
        stream remarks a.policy.skipInactive a.rules calls ∧
      (∃ s, Streams remarks a.policy.parallel a.policy.skipInactive a.rules calls s ∧
        (a.audits calls).2.log.toList = a.log.toList ++ a.policy.keeps a.log.count s) ∧
      (a.policy.parallel = false →
        (a.audits calls).2.log.toList = a.log.toList ++
          a.policy.keeps a.log.count (stream remarks a.policy.skipInactive a.rules calls) ∧
        (∀ n, (∀ k, a.policy.limit = some k → n ≤ k) →
          ((a.under { a.policy with limit := some n }).audits calls).2.log.toList <+:
            (a.audits calls).2.log.toList) ∧
        ∀ severity confidence, a.policy.minSeverity ≤ severity →
          a.policy.minConfidence ≤ confidence →
          ∃ found,
            ((a.under { a.policy with limit := none }).audits calls).2.log.toList =
              a.log.toList ++ found ∧
            ((a.under { a.policy with
                minSeverity := severity, minConfidence := confidence, limit := none }).audits
                calls).2.log.toList =
              a.log.toList ++
                found.filter fun d => severity ≤ d.severity ∧ confidence ≤ d.confidence) := by
  have hlog : ∀ b : Auditor ρ, b.policy.parallel = false → (b.audits calls).2.log.toList =
      b.log.toList ++ b.policy.keeps b.log.count
        (stream remarks b.policy.skipInactive b.rules calls) := by
    intro b hparallel
    obtain ⟨s, hs, -, hafter⟩ := exists_put_audits hremarks b calls
    rw [hparallel] at hs
    rw [hafter, toList_put, hs.eq_stream]
  obtain ⟨s, hs, hreported, hafter⟩ := exists_put_audits hremarks a calls
  refine ⟨hreported, ⟨s, hs, by rw [hafter, toList_put]⟩, fun hparallel =>
    ⟨hlog a hparallel, fun n hn => ?_, fun severity confidence hseverity hconfidence => ?_⟩⟩
  · rw [hlog a hparallel, hlog (a.under { a.policy with limit := some n }) hparallel]
    exact (List.prefix_append_right_inj a.log.toList).mpr (Policy.keeps_limit_prefix hn _ _)
  · refine ⟨a.policy.passing (stream remarks a.policy.skipInactive a.rules calls),
      hlog (a.under { a.policy with limit := none }) hparallel, ?_⟩
    rw [← Policy.passing_raise hseverity hconfidence]
    exact hlog (a.under { a.policy with
      minSeverity := severity, minConfidence := confidence, limit := none }) hparallel

/-- An application whose framework knows static classes, and a library whose framework does not. -/
def linkedCalls (plan : Plan) : List (World × Module × Plan) :=
  [(.linked, ⟨"App", .v4_0, 0⟩, plan), (.linked, ⟨"Lib", .v1_1, 1⟩, plan)]

theorem recites_sum_fixedRule : Rule.Recites (ρ := StaticCandidate ⊕ FixedRule)
    (Sum.elim StaticCandidate.remarks fun rule _ _ => rule.spoken) :=
  .sum StaticCandidate.recites_check fun rule _ _ t => rule.recites_check t

theorem toList_audits_limited :
    Rule.Recites (ρ := StaticCandidate ⊕ FixedRule)
        (Sum.elim StaticCandidate.remarks fun rule _ _ => rule.spoken) ∧
      (limited.audits (linkedCalls .inOrder)).2.log.toList.map (fun d => (d.rule, d.token)) =
        [("Earlier", .typeDef 9), (StaticCandidate.name, .typeDef 1),
          (StaticCandidate.name, .typeDef 2), ("Twofold", .typeDef 1), ("Twofold", .typeDef 2),
          ("Twofold", .typeDef 3), ("Twofold", .typeDef 1)] ∧
      (∀ k, limited.policy.limit = some k → 4 ≤ k) ∧
      ((limited.under { limited.policy with limit := some 4 }).audits
          (linkedCalls .inOrder)).2.log.toList <+:
        (limited.audits (linkedCalls .inOrder)).2.log.toList ∧
      (∃ s, Streams (Sum.elim StaticCandidate.remarks fun rule _ _ => rule.spoken) true true
          cramped.rules (linkedCalls overtaking) s ∧
        (cramped.audits (linkedCalls overtaking)).2.log.toList =
          cramped.log.toList ++ cramped.policy.keeps cramped.log.count s) := by
  have hlimit : ∀ k, limited.policy.limit = some k → 4 ≤ k := by
    rintro k ⟨⟩
    decide
  obtain ⟨-, -, hinOrder⟩ := toList_audits recites_sum_fixedRule limited (linkedCalls .inOrder)
  obtain ⟨hlog, hlower, -⟩ := hinOrder rfl
  obtain ⟨-, htogether, -⟩ := toList_audits recites_sum_fixedRule cramped (linkedCalls overtaking)
  refine ⟨recites_sum_fixedRule, ?_, hlimit, hlower 4 hlimit, htogether⟩
  rw [hlog]
  decide +kernel

/-- Where types are checked at the same time, the order of the types need not be that of the log, nor
need the limit leave room for the first ones. -/
theorem toList_audits_ne_overtaking :
    Rule.Recites (ρ := StaticCandidate ⊕ FixedRule)
        (Sum.elim StaticCandidate.remarks fun rule _ _ => rule.spoken) ∧
      (cramped.audits (linkedCalls overtaking)).2.log.toList.map (·.token) =
        [.typeDef 9, .typeDef 2] ∧
      (cramped.log.toList ++ cramped.policy.keeps cramped.log.count
          (stream (Sum.elim StaticCandidate.remarks fun rule _ _ => rule.spoken)
            cramped.policy.skipInactive cramped.rules (linkedCalls overtaking))).map (·.token) =
        [.typeDef 9, .typeDef 1] := by
  refine ⟨recites_sum_fixedRule, ?_, ?_⟩ <;> decide +kernel

end Auditor

end ModuleAudit
