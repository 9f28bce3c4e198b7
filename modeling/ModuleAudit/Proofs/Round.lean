import Mathlib.Logic.Relation
import ModuleAudit.Proofs.Course
import ModuleAudit.Proofs.Interleaving

/-!
# Rounds step by step

Whatever turns the checks of a round take, and whatever is left to do after them, the round comes to its
end in single steps of single checks. So what holds at the start, and is kept by a step of one check,
holds at any moment of any round. In particular the log grows by an interleaving of what the checks find.

## Main definitions

* `Lane.Step`, `Round.Step`: a step of a check, and what it does to the round.
* `Round.Steps`: any number of steps.
* `Round.Grown`: how the log of a round has grown.

## Main statements

* `Round.steps_iff_exists_after`: turns lead just where steps of the checks do.
* `Auditor.exists_steps_checkTogether`: checks made at the same time are steps from the start of a round
  to its end.
* `Round.Grown.steps`: a log grows by an interleaving of the findings of the checks, within the limit.
* `Round.exists_course`: each check of a round passes through a course of its own.
-/

namespace ModuleAudit

/-! ### One check -/

namespace Lane

variable {policy : Policy} {rule problem : String} {free : Bool} {l l' : Lane} {written : Option Defect}

/-- The findings of the check that are written to the log. -/
def found (l : Lane) : List Defect := Report.found l.reports

@[simp] theorem held_write (l : Lane) : l.write.held = none := by
  unfold write
  split
  · assumption
  · rfl

@[simp] theorem rest_write (l : Lane) : l.write.rest = l.rest := by
  unfold write
  split <;> rfl

theorem write_of_held_eq_none (h : l.held = none) : l.write = l := by
  rw [write, h]

theorem write_of_held_eq_some {d : Defect} (h : l.held = some d) : l.write =
    { l with held := none, kept := l.kept + 1, reports := l.reports ++ [⟨d, true⟩] } := by
  rw [write, h]

/-- `Step policy rule problem free l written l'`: a step of the check `l` that leads to `l'`, with the
finding that it writes to the log. `free` tells whether there is a slot to reserve. -/
inductive Step (policy : Policy) (rule problem : String) (free : Bool) (l : Lane) :
    Option Defect → Lane → Prop
  | write {d : Defect} (held : l.held = some d) : Step policy rule problem free l (some d) l.write
  | ask {next : Nat → Check CheckResult} (held : l.held = none) (rest : l.rest = .askKept next) :
      Step policy rule problem free l none { l with rest := next l.kept }
  | reserve {target : TypeDef} {severity : Severity} {confidence : Confidence}
      {next : Bool → Check CheckResult} (held : l.held = none)
      (rest : l.rest = .report target severity confidence next)
      (accepts : policy.accepts severity confidence = true) (slot : free = true) :
      Step policy rule problem free l none
        { l with held := some (.ofType rule problem target severity confidence), rest := next true }
  | refuse {target : TypeDef} {severity : Severity} {confidence : Confidence}
      {next : Bool → Check CheckResult} (held : l.held = none)
      (rest : l.rest = .report target severity confidence next)
      (refused : policy.accepts severity confidence = true → free = false) :
      Step policy rule problem free l none
        { l with
          rest := next false
          reports := l.reports ++ [⟨.ofType rule problem target severity confidence, false⟩] }

/-- What a step does to the findings of a check, to its count, and to the slot that it holds. -/
structure Goes (policy : Policy) (free : Bool) (l : Lane) (written : Option Defect) (l' : Lane) :
    Prop where
  type : l'.type = l.type
  held : ∀ d, written = some d → l.held = some d
  found : l'.found = l.found ++ written.toList
  kept : l'.kept = l.kept + written.toList.length
  accepted : ∀ d, l'.held = some d → policy.accepts d.severity d.confidence = true
  slots : written.toList.length + l'.held.toList.length = l.held.toList.length ∨
    free = true ∧ written.toList.length + l'.held.toList.length = l.held.toList.length + 1

theorem Step.goes (h : Step policy rule problem free l written l') :
    Goes policy free l written l' := by
  cases h with
  | @write d held =>
    rw [write_of_held_eq_some held]
    refine ⟨rfl, fun e he => he ▸ held, ?_, rfl, nofun, .inl ?_⟩
    · exact Report.found_concat l.reports d true
    · rw [held]
      rfl
  | @ask next held rest =>
    exact ⟨rfl, nofun, (List.append_nil _).symm, rfl, by rw [held]; exact nofun, .inl (Nat.zero_add _)⟩
  | @reserve target severity confidence next held rest accepts slot =>
    refine ⟨rfl, nofun, (List.append_nil _).symm, rfl, ?_, .inr ⟨slot, ?_⟩⟩
    · rintro d ⟨rfl⟩
      exact accepts
    · rw [held]
      rfl
  | @refuse target severity confidence next held rest refused =>
    refine ⟨rfl, nofun, ?_, rfl, by rw [held]; exact nofun, .inl (Nat.zero_add _)⟩
    exact Report.found_concat l.reports _ false

/-- A check that holds no slot takes a step, unless it has come to its end. -/
theorem step_eq_or_step (policy : Policy) (rule problem : String) (free : Bool) (held : l.held = none) :
    l.step policy rule problem free = l ∨
      Step policy rule problem free l none (l.step policy rule problem free) := by
  unfold step
  split
  · exact .inl rfl
  · next next rest => exact .inr (.ask held rest)
  · next target severity confidence next rest =>
    dsimp only
    split
    · next h =>
      obtain ⟨haccepts, hslot⟩ := Bool.and_eq_true_iff.mp h
      exact .inr (.reserve held rest haccepts hslot)
    · next h =>
      refine .inr (.refuse held rest fun haccepts => Bool.eq_false_iff.mpr fun hslot => h ?_)
      exact Bool.and_eq_true_iff.mpr ⟨haccepts, hslot⟩

/-- The check has come to its end, and this is its outcome. -/
structure Ends {ρ : Type} (rule : ρ) (l : Lane) (c : Checked ρ) : Prop where
  rule : c.rule = rule
  type : c.type = l.type
  held : l.held = none
  rest : l.rest = .done c.result
  reports : c.reports = l.reports

section Ends

variable {ρ β : Type} {rule : ρ} {ended : List Lane} {checked : List (Checked ρ)}

/-- What the outcomes of checks are can be told from the checks, if it can of each. -/
theorem map_of_ends (h : List.Forall₂ (Ends rule) ended checked) {f : Checked ρ → β} {g : Lane → β}
    (hfg : ∀ l ∈ ended, ∀ c, Ends rule l c → f c = g l) : checked.map f = ended.map g := by
  induction h with
  | nil => rfl
  | cons hends _ ih =>
    obtain ⟨hfirst, hrest⟩ := List.forall_mem_cons.mp hfg
    rw [List.map_cons, List.map_cons, hfirst _ hends, ih hrest]

theorem eq_map_of_ends (h : List.Forall₂ (Ends rule) ended checked) {g : Lane → Checked ρ}
    (hg : ∀ l ∈ ended, ∀ c, Ends rule l c → c = g l) : checked = ended.map g := by
  have hmap := map_of_ends h (f := id) hg
  rwa [List.map_id] at hmap

theorem map_found_of_ends (h : List.Forall₂ (Ends rule) ended checked) :
    checked.map (·.found) = ended.map (·.found) :=
  map_of_ends h fun _ _ _ hends => congrArg Report.found hends.reports

theorem done_of_ends (h : List.Forall₂ (Ends rule) ended checked) :
    ∀ l ∈ ended, l.held = none ∧ ∃ value, l.rest = .done value := by
  induction h with
  | nil => exact List.forall_mem_nil _
  | cons hends _ ih => exact List.forall_mem_cons.mpr ⟨⟨hends.held, _, hends.rest⟩, ih⟩

end Ends

end Lane

/-! ### All checks of a round -/

namespace Round

variable {policy : Policy} {rule problem : String} {r r' : Round} {limit : Option Nat}

/-- A step of one of the checks. What it writes goes to the end of the log. -/
inductive Step (policy : Policy) (rule problem : String) : Round → Round → Prop
  | mk {log : DefectLog} {before after : List Lane} {l l' : Lane} {written : Option Defect}
      (h : Lane.Step policy rule problem (hasSlot ⟨log, before ++ l :: after⟩ policy.limit)
        l written l') :
      Step policy rule problem ⟨log, before ++ l :: after⟩
        ⟨written.elim log log.push, before ++ l' :: after⟩

/-- Any number of steps, in any order of the checks. -/
abbrev Steps (policy : Policy) (rule problem : String) : Round → Round → Prop :=
  Relation.ReflTransGen (Step policy rule problem)

theorem exists_split {lanes : List Lane} {i : Nat} {l : Lane} (h : lanes[i]? = some l) :
    ∃ before after, lanes = before ++ l :: after ∧ ∀ l', lanes.set i l' = before ++ l' :: after := by
  induction lanes generalizing i with
  | nil => cases h
  | cons x rest ih =>
    cases i with
    | zero =>
      cases h
      exact ⟨[], rest, rfl, fun _ => rfl⟩
    | succ i =>
      obtain ⟨before, after, rfl, hset⟩ := ih h
      exact ⟨x :: before, after, rfl, fun l' => congrArg (x :: ·) (hset l')⟩

/-! ### From turns to steps -/

theorem steps_turn (policy : Policy) (rule problem : String) (r : Round) (i : Nat) :
    Steps policy rule problem r (r.turn policy rule problem i) := by
  obtain ⟨log, lanes⟩ := r
  unfold turn
  split
  · exact .refl
  · next l hl =>
    obtain ⟨before, after, rfl, hset⟩ := exists_split hl
    simp only [hset]
    split
    · next d held => exact .single (.mk (.write held))
    · next held =>
      rcases Lane.step_eq_or_step policy rule problem (hasSlot ⟨log, before ++ l :: after⟩ policy.limit)
        held with heq | hstep
      · rw [heq]
      · exact .single (.mk hstep)

theorem steps_after (policy : Policy) (rule problem : String) (turns : List Nat) (r : Round) :
    Steps policy rule problem r (r.after policy rule problem turns) := by
  induction turns generalizing r with
  | nil => exact .refl
  | cons i turns ih => exact (steps_turn policy rule problem r i).trans (ih _)

/-- Each step is the turn of some check. -/
theorem exists_turn_of_step (h : Step policy rule problem r r') :
    ∃ i, r.turn policy rule problem i = r' := by
  obtain ⟨hl⟩ := h
  rename_i log before after l l' written
  have hget : (before ++ l :: after)[before.length]? = some l := by simp
  have hset : ∀ x, (before ++ l :: after).set before.length x = before ++ x :: after := by simp
  refine ⟨before.length, ?_⟩
  cases hl with
  | write held => simp only [turn, hget, held, hset, Option.elim]
  | ask held rest => simp only [turn, hget, held, hset, Lane.step, rest, Option.elim]
  | @reserve target severity confidence next held rest accepts slot =>
    have hkeep : (policy.accepts severity confidence &&
        hasSlot ⟨log, before ++ l :: after⟩ policy.limit) = true := by rw [accepts, slot]; rfl
    simp only [turn, hget, held, hset, Lane.step, rest, Defect.ofType, hkeep, if_true, Option.elim]
  | @refuse target severity confidence next held rest refused =>
    have hdrop : (policy.accepts severity confidence &&
        hasSlot ⟨log, before ++ l :: after⟩ policy.limit) = false := by
      cases haccepts : policy.accepts severity confidence with
      | false => rfl
      | true => exact refused haccepts
    simp only [turn, hget, held, hset, Lane.step, rest, Defect.ofType, hdrop, Bool.false_eq_true,
      if_false, Option.elim]

/-- Turns lead wherever steps do: the turns of a round are all orders in which its checks can go on. -/
theorem steps_iff_exists_after : Steps policy rule problem r r' ↔
    ∃ turns, r.after policy rule problem turns = r' := by
  constructor
  · intro h
    induction h with
    | refl => exact ⟨[], rfl⟩
    | tail _ hlast ih =>
      obtain ⟨turns, rfl⟩ := ih
      obtain ⟨i, rfl⟩ := exists_turn_of_step hlast
      exact ⟨turns ++ [i], List.foldl_append⟩
  · rintro ⟨turns, rfl⟩
    exact steps_after policy rule problem turns r

theorem steps_settled (policy : Policy) (rule problem : String) (r : Round) :
    Steps policy rule problem r r.settled := by
  obtain ⟨log, lanes⟩ := r
  suffices h : ∀ before log, Steps policy rule problem ⟨log, before ++ lanes⟩
      ⟨(lanes.filterMap (·.held)).foldl .push log, before ++ lanes.map (·.write)⟩ from h [] log
  induction lanes with
  | nil => exact fun _ _ => .refl
  | cons l rest ih =>
    intro before log
    have hrest := ih (before ++ [l.write])
    simp only [List.append_assoc, List.singleton_append] at hrest
    cases held : l.held with
    | none =>
      rw [List.filterMap_cons_none held, List.map_cons, Lane.write_of_held_eq_none held]
      simpa only [Lane.write_of_held_eq_none held] using hrest log
    | some d =>
      rw [List.filterMap_cons_some held]
      exact .head (.mk (.write held)) (hrest (log.push d))

theorem pending_settled (r : Round) : ∀ l ∈ r.settled.lanes, l.held = none := by
  intro l hl
  obtain ⟨l', -, rfl⟩ := List.mem_map.mp hl
  exact l'.held_write

theorem hasSlot_of_held_eq_none (log : DefectLog) {lanes : List Lane}
    (h : ∀ l ∈ lanes, l.held = none) (limit : Option Nat) :
    hasSlot ⟨log, lanes⟩ limit = log.hasRoom limit := by
  have hpending : pending ⟨log, lanes⟩ = [] := List.filterMap_eq_nil_iff.mpr h
  cases limit with
  | none => rfl
  | some n => rw [hasSlot, reserved, hpending]; rfl

/-- Where no other check holds a slot, a check that is run to its end takes the steps of its round. -/
theorem steps_run (policy : Policy) (rule problem : String) {before after : List Lane}
    (hbefore : ∀ l ∈ before, l.held = none) (hafter : ∀ l ∈ after, l.held = none) (type : TypeDef)
    (c : Check CheckResult) (p : Progress) :
    Steps policy rule problem ⟨p.log, before ++ ⟨type, none, c, p.kept, p.reports⟩ :: after⟩
      ⟨(c.run policy rule problem p).2.log,
        before ++ ⟨type, none, .done (c.run policy rule problem p).1,
          (c.run policy rule problem p).2.kept, (c.run policy rule problem p).2.reports⟩ :: after⟩ := by
  induction c generalizing p with
  | done value => exact .refl
  | report target severity confidence next ih =>
    let d : Defect := .ofType rule problem target severity confidence
    let l : Lane := ⟨type, none, .report target severity confidence next, p.kept, p.reports⟩
    have hnone : ∀ x ∈ before ++ l :: after, x.held = none := by
      intro x hx
      rcases List.mem_append.mp hx with hx | hx
      · exact hbefore x hx
      · rcases List.mem_cons.mp hx with rfl | hx
        · rfl
        · exact hafter x hx
    have hslot := hasSlot_of_held_eq_none p.log hnone policy.limit
    refine .trans ?_ (ih (p.take policy d).1 (p.take policy d).2)
    rw [Progress.take_eq]
    by_cases hkeep : policy.accepts d.severity d.confidence = true ∧ p.log.hasRoom policy.limit = true
    · rw [if_pos hkeep]
      exact .head (.mk (.reserve rfl rfl hkeep.1 (hslot.trans hkeep.2))) (.single (.mk (.write rfl)))
    · rw [if_neg hkeep]
      refine .single (.mk (.refuse rfl rfl fun haccepts => ?_))
      rw [hslot]
      exact Bool.eq_false_iff.mpr fun hroom => hkeep ⟨haccepts, hroom⟩
  | askKept next ih => exact .head (.mk (.ask rfl rfl)) (ih p.kept p)

/-! ### From one step to all -/

/-- What is kept by every step of a check holds of all checks of a round, if it does at the start. -/
theorem Steps.forall_lanes {P : Lane → Prop} (h : Steps policy rule problem r r')
    (hstep : ∀ (r : Round) l written l',
      Lane.Step policy rule problem (r.hasSlot policy.limit) l written l' → P l → P l')
    (hr : ∀ l ∈ r.lanes, P l) : ∀ l ∈ r'.lanes, P l := by
  induction h with
  | refl => exact hr
  | tail _ hlast ih =>
    obtain ⟨h⟩ := hlast
    simp only [List.forall_mem_append, List.forall_mem_cons] at ih ⊢
    exact ⟨ih.1, hstep _ _ _ _ h ih.2.1, ih.2.2⟩

theorem Steps.map_type (h : Steps policy rule problem r r') :
    r'.lanes.map (·.type) = r.lanes.map (·.type) := by
  induction h with
  | refl => rfl
  | tail _ hlast ih =>
    obtain ⟨h⟩ := hlast
    rw [← ih, List.map_append, List.map_append, List.map_cons, List.map_cons, h.goes.type]

theorem Steps.map_type_start {ρ : Type} [Rule ρ] {rule' : ρ} {w : World} {m : Module} {log : DefectLog}
    {types : List TypeDef} (h : Steps policy rule problem (.start rule' w m log types) r) :
    r.lanes.map (·.type) = types := by
  rw [h.map_type]
  simp [start, Lane.start, Function.comp_def]

theorem hasSlot_iff : r.hasSlot limit = true ↔ ∀ n, limit = some n → r.reserved < n := by
  cases limit <;> simp [hasSlot]

theorem reserved_eq (log : DefectLog) (before after : List Lane) (l : Lane) :
    reserved ⟨log, before ++ l :: after⟩ =
      log.count + (pending ⟨log, before ++ after⟩).length + l.held.toList.length := by
  have hlog : log.reserved = log.count := log.reserved_eq
  cases h : l.held <;> simp [reserved, pending, hlog, h]
  omega

/-- A step reserves a slot if there is one, or else leaves the number of slots in use as it is: what is
written had its slot before. -/
theorem reserved_of_step (h : Step policy rule problem r r') : r'.reserved = r.reserved ∨
    r.hasSlot policy.limit = true ∧ r'.reserved = r.reserved + 1 := by
  obtain ⟨hl⟩ := h
  rename_i log before after l l' written
  have hcount : (written.elim log log.push).count = log.count + written.toList.length := by
    cases written <;> simp
  have hpending : pending ⟨written.elim log log.push, before ++ after⟩ =
    pending ⟨log, before ++ after⟩ := rfl
  rw [reserved_eq, reserved_eq, hpending, hcount]
  rcases hl.goes.slots with hslots | ⟨hslot, hslots⟩
  · exact .inl (by omega)
  · exact .inr ⟨hslot, by omega⟩

/-- The log of a round has grown by these findings. All of them, and those that have a slot, pass the
thresholds, and no slot was reserved beyond the limit. -/
structure Grown (policy : Policy) (log : DefectLog) (found : List Defect) (r : Round) : Prop where
  toList_eq : r.log.toList = log.toList ++ found
  interleaves : Interleaves (r.lanes.map (·.found)) found
  accepted : ∀ d ∈ found, policy.accepts d.severity d.confidence = true
  held : ∀ l ∈ r.lanes, ∀ d, l.held = some d → policy.accepts d.severity d.confidence = true
  kept : ∀ l ∈ r.lanes, l.kept = l.found.length
  bounded : ∀ n, policy.limit = some n → r.reserved ≤ max n log.count

theorem grown_start {ρ : Type} [Rule ρ] (policy : Policy) (rule : ρ) (w : World) (m : Module)
    (log : DefectLog) (types : List TypeDef) : Grown policy log [] (.start rule w m log types) where
  toList_eq := (List.append_nil _).symm
  interleaves := .nil (by simp [start, Lane.start, Lane.found, Report.found])
  accepted := nofun
  held := by simp [start, Lane.start]
  kept := by simp [start, Lane.start, Lane.found, Report.found]
  bounded n _ := by
    have hlog : log.reserved = log.count := log.reserved_eq
    have hreserved : (start rule w m log types).reserved = log.count := by
      simp [start, Lane.start, reserved, pending, hlog]
    exact hreserved ▸ Nat.le_max_right n log.count

/-- A step of one check adds to the log what it writes, and nothing else. -/
theorem Grown.step {log : DefectLog} {found : List Defect} (h : Grown policy log found r)
    (hstep : Step policy rule problem r r') : ∃ more, Grown policy log (found ++ more) r' := by
  have hreserved := reserved_of_step hstep
  obtain ⟨hl⟩ := hstep
  rename_i now before after l l' written
  have hgoes := hl.goes
  obtain ⟨htoList, hinterleaves, haccepted, hheld, hkept, hbounded⟩ := h
  simp only [List.forall_mem_append, List.forall_mem_cons] at hheld hkept
  rw [List.map_append, List.map_cons] at hinterleaves
  refine ⟨written.toList, ?_, ?_, ?_, ?_, ?_, fun n hlimit => ?_⟩
  · rw [← List.append_assoc, ← htoList]
    cases written with
    | none => exact (List.append_nil _).symm
    | some d => exact DefectLog.toList_push now d
  · rw [List.map_append, List.map_cons, hgoes.found]
    exact hinterleaves.append written.toList
  · intro d hd
    rcases List.mem_append.mp hd with hd | hd
    · exact haccepted d hd
    · exact hheld.2.1 d (hgoes.held d (Option.mem_toList.mp hd))
  · simp only [List.forall_mem_append, List.forall_mem_cons]
    exact ⟨hheld.1, hgoes.accepted, hheld.2.2⟩
  · simp only [List.forall_mem_append, List.forall_mem_cons]
    refine ⟨hkept.1, ?_, hkept.2.2⟩
    rw [hgoes.kept, hgoes.found, List.length_append, hkept.2.1]
  · have hbefore := hbounded n hlimit
    rcases hreserved with hreserved | ⟨hslot, hreserved⟩
    · omega
    · have hroom := hasSlot_iff.mp hslot n hlimit
      omega

theorem Grown.adds {log : DefectLog} {found : List Defect} (h : Grown policy log found r) :
    policy.Adds log found r.log where
  toList_eq := h.toList_eq
  accepted := h.accepted
  bounded n hlimit hcount := by
    have hbounded := h.bounded n hlimit
    have hlog : r.log.reserved = r.log.count := r.log.reserved_eq
    rw [reserved] at hbounded
    omega

/-- The log only grows, by an interleaving of what the checks find, and within the limit. -/
theorem Grown.steps {log : DefectLog} {found : List Defect} (h : Grown policy log found r)
    (hsteps : Steps policy rule problem r r') : ∃ more, Grown policy log (found ++ more) r' := by
  induction hsteps with
  | refl => exact ⟨[], by rwa [List.append_nil]⟩
  | tail _ hlast ih =>
    obtain ⟨more, hmore⟩ := ih
    obtain ⟨last, hlast⟩ := hmore.step hlast
    exact ⟨more ++ last, by rwa [← List.append_assoc]⟩

theorem Steps.exists_grown {ρ : Type} [Rule ρ] {rule' : ρ} {w : World} {m : Module}
    {log : DefectLog} {types : List TypeDef}
    (h : Steps policy rule problem (.start rule' w m log types) r) :
    ∃ found, Grown policy log found r :=
  (grown_start policy rule' w m log types).steps h

end Round

namespace Auditor

variable {ρ : Type} [Rule ρ]

theorem finish_snd (a : Auditor ρ) (rule : ρ) (lanes : List Lane) :
    (a.finish rule lanes).2 = { a with log := (a.finish rule lanes).2.log } := by
  induction lanes generalizing a with
  | nil => rfl
  | cons l rest ih => exact ih _

theorem exists_steps_finish (a : Auditor ρ) (rule : ρ) {before lanes : List Lane}
    (hbefore : ∀ l ∈ before, l.held = none) (hlanes : ∀ l ∈ lanes, l.held = none) :
    ∃ ended, Round.Steps a.policy (Rule.name rule) (Rule.problem rule) ⟨a.log, before ++ lanes⟩
        ⟨(a.finish rule lanes).2.log, before ++ ended⟩ ∧
      List.Forall₂ (Lane.Ends rule) ended (a.finish rule lanes).1 := by
  induction lanes generalizing a before with
  | nil => exact ⟨[], .refl, .nil⟩
  | cons l rest ih =>
    obtain ⟨type, held, c, kept, reports⟩ := l
    obtain rfl : held = none := hlanes _ List.mem_cons_self
    have hrest : ∀ l ∈ rest, l.held = none := fun l hl => hlanes l (List.mem_cons_of_mem _ hl)
    let x := c.run a.policy (Rule.name rule) (Rule.problem rule) ⟨a.log, kept, reports⟩
    let last : Lane := ⟨type, none, .done x.1, x.2.kept, x.2.reports⟩
    have hfirst := Round.steps_run a.policy (Rule.name rule) (Rule.problem rule) hbefore hrest type c
      ⟨a.log, kept, reports⟩
    have hdone : ∀ l ∈ before ++ [last], l.held = none := by
      intro l hl
      rcases List.mem_append.mp hl with hl | hl
      · exact hbefore l hl
      · rw [List.mem_singleton.mp hl]
    obtain ⟨ended, hsteps, hends⟩ := ih { a with log := x.2.log } hdone hrest
    simp only [List.append_assoc, List.singleton_append] at hsteps
    exact ⟨last :: ended, hfirst.trans hsteps, .cons ⟨rfl, rfl, rfl, rfl, rfl⟩ hends⟩

/-- Checks made at the same time are steps from the start of a round to its end. -/
theorem exists_steps_checkTogether (a : Auditor ρ) (rule : ρ) (w : World) (m : Module)
    (types : List TypeDef) (turns : List Nat) :
    ∃ ended, Round.Steps a.policy (Rule.name rule) (Rule.problem rule)
        (.start rule w m a.log types) ⟨(a.checkTogether rule w m types turns).2.log, ended⟩ ∧
      List.Forall₂ (Lane.Ends rule) ended (a.checkTogether rule w m types turns).1 := by
  let r := (Round.start rule w m a.log types).after a.policy (Rule.name rule) (Rule.problem rule) turns
  obtain ⟨ended, hsteps, hends⟩ := exists_steps_finish { a with log := r.settled.log } rule
    (List.forall_mem_nil _) (Round.pending_settled r)
  exact ⟨ended, ((Round.steps_after ..).trans (Round.steps_settled ..)).trans hsteps, hends⟩

/-- There is one outcome for each type, in the order of the types, whatever the turns. -/
theorem map_checkTogether (a : Auditor ρ) (rule : ρ) (w : World) (m : Module) (types : List TypeDef)
    (turns : List Nat) : (a.checkTogether rule w m types turns).1.map (fun c => (c.rule, c.type)) =
      types.map (rule, ·) := by
  obtain ⟨ended, hsteps, hends⟩ := a.exists_steps_checkTogether rule w m types turns
  have htypes : ended.map (·.type) = types := hsteps.map_type_start
  have hended : (a.checkTogether rule w m types turns).1.map (fun c => (c.rule, c.type)) =
      ended.map fun l => (rule, l.type) :=
    Lane.map_of_ends hends fun l _ c hc => Prod.ext hc.rule hc.type
  rw [hended, ← htypes, List.map_map]
  rfl

/-- Checks made at the same time add to the log just the findings that were kept, in some order, those
of each check in the order of its reports. -/
theorem exists_adds_checkTogether (a : Auditor ρ) (rule : ρ) (w : World) (m : Module)
    (types : List TypeDef) (turns : List Nat) :
    ∃ found, a.policy.Adds a.log found (a.checkTogether rule w m types turns).2.log ∧
      Interleaves ((a.checkTogether rule w m types turns).1.map (·.found)) found := by
  obtain ⟨ended, hsteps, hends⟩ := a.exists_steps_checkTogether rule w m types turns
  obtain ⟨found, hgrown⟩ := hsteps.exists_grown
  refine ⟨found, hgrown.adds, ?_⟩
  rw [Lane.map_found_of_ends hends]
  exact hgrown.interleaves

/-- A check adds to the log just its findings that were kept, and is told how many they are. -/
theorem adds_check (a : Auditor ρ) (rule : ρ) (w : World) (m : Module) (t : TypeDef) :
    a.policy.Adds a.log (a.check rule w m t).1.found (a.check rule w m t).2.log ∧
      ((Rule.check rule w m t).run a.policy (Rule.name rule) (Rule.problem rule)
        (.start a.log)).2.kept = (a.check rule w m t).1.found.length := by
  have hsteps : Round.Steps a.policy (Rule.name rule) (Rule.problem rule)
      (.start rule w m a.log [t]) _ :=
    Round.steps_run a.policy (Rule.name rule) (Rule.problem rule) (List.forall_mem_nil _)
      (List.forall_mem_nil _) t (Rule.check rule w m t) (.start a.log)
  obtain ⟨found, hgrown⟩ := hsteps.exists_grown
  have hfound : found = (a.check rule w m t).1.found :=
    interleaves_singleton.mp hgrown.interleaves
  rw [hfound] at hgrown
  exact ⟨hgrown.adds, hgrown.kept _ List.mem_cons_self⟩

/-! ### Rounds without turns -/

theorem checkAll_cons (a : Auditor ρ) (w : World) (m : Module) (c : ρ × TypeDef)
    (rest : List (ρ × TypeDef)) : a.checkAll w m (c :: rest) =
      ((a.check c.1 w m c.2).1 :: ((a.check c.1 w m c.2).2.checkAll w m rest).1,
        ((a.check c.1 w m c.2).2.checkAll w m rest).2) := rfl

theorem finish_start (a : Auditor ρ) (rule : ρ) (w : World) (m : Module) (types : List TypeDef) :
    a.finish rule (types.map fun t => .start t (Rule.check rule w m t)) =
      a.checkAll w m (types.map (rule, ·)) := by
  induction types generalizing a with
  | nil => rfl
  | cons t rest ih =>
    rw [List.map_cons, List.map_cons, checkAll_cons, ← ih]
    rfl

/-- Where no check takes a turn before its own is due, checks are made one after the other. -/
theorem checkTogether_nil (a : Auditor ρ) (rule : ρ) (w : World) (m : Module)
    (types : List TypeDef) :
    a.checkTogether rule w m types [] = a.checkAll w m (types.map (rule, ·)) := by
  have hsettled : (Round.start rule w m a.log types).settled = .start rule w m a.log types := by
    simp [Round.settled, Round.pending, Round.start, Lane.start, Lane.write, Function.comp_def]
  rw [← finish_start, checkTogether, Round.after, List.foldl_nil, hsettled]
  rfl

/-- An audit makes the checks of each rule at the same time, though perhaps in turns that leave no check
beside another. -/
theorem checkTypes_eq (a : Auditor ρ) (rule : ρ) (w : World) (m : Module) (turns : List Nat) :
    a.checkTypes rule w m turns =
      a.checkTogether rule w m (m.types w) (if a.policy.parallel then turns else []) := by
  unfold checkTypes
  split
  · rfl
  · exact (a.checkTogether_nil rule w m (m.types w)).symm

theorem map_checkTypes (a : Auditor ρ) (rule : ρ) (w : World) (m : Module) (turns : List Nat) :
    (a.checkTypes rule w m turns).1.map (fun c => (c.rule, c.type)) = (m.types w).map (rule, ·) := by
  rw [checkTypes_eq]
  exact a.map_checkTogether rule w m (m.types w) _

theorem checkTogether_snd (a : Auditor ρ) (rule : ρ) (w : World) (m : Module) (types : List TypeDef)
    (turns : List Nat) : (a.checkTogether rule w m types turns).2 =
      { a with log := (a.checkTogether rule w m types turns).2.log } :=
  finish_snd _ rule _

theorem checkTypes_snd (a : Auditor ρ) (rule : ρ) (w : World) (m : Module) (turns : List Nat) :
    (a.checkTypes rule w m turns).2 = { a with log := (a.checkTypes rule w m turns).2.log } := by
  rw [checkTypes_eq]
  exact a.checkTogether_snd rule w m _ _

theorem checkRules_cons (a : Auditor ρ) (w : World) (m : Module) (c : ρ × List Nat)
    (rest : List (ρ × List Nat)) : a.checkRules w m (c :: rest) =
      ((a.checkTypes c.1 w m c.2).1 ++ ((a.checkTypes c.1 w m c.2).2.checkRules w m rest).1,
        ((a.checkTypes c.1 w m c.2).2.checkRules w m rest).2) := rfl

/-- The rules of an agenda are those that are not skipped, in their order. -/
theorem map_fst_agenda (a : Auditor ρ) (plan : Plan) :
    (a.agenda plan).map (·.1) = a.rules.filter (!a.isSkipped ·) := by
  have hrules : (a.rules.zipIdx.map Prod.fst).filter (!a.isSkipped ·) =
      a.rules.filter (!a.isSkipped ·) := by rw [List.zipIdx_map_fst]
  rw [← hrules, List.filter_map, agenda, List.map_map]
  rfl

end Auditor

end ModuleAudit
