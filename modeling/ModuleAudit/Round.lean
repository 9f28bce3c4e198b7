import ModuleAudit.Rule

/-!
# Rounds

Checks of one rule may be made at the same time. They share the log and nothing else: a check with a
finding to report first reserves a slot, if the limit leaves one, and then writes the finding to the end
of the log. Between the two, and between any other steps that it takes, the other checks may take steps
of theirs. Which check takes the next step is not up to the checks; a list of turns says it.

## Main definitions

* `Lane`: one of the checks of a round, and how far it has come.
* `Round`: the log, and the checks that share it.
* `Round.start`: the round before the first step.
* `Round.turn`, `Round.after`: a step of one check, and the steps of a list of turns.
* `Round.settled`: the round once all reserved slots are written to.
* `Plan`: the turns of all rounds of an audit.
-/

namespace ModuleAudit

/-- A check of a type that other checks may be made beside: the finding that it has reserved a slot for
and not yet written, what it does then, how many of its findings are written, and its reports so far. -/
structure Lane where
  type : TypeDef
  held : Option Defect
  rest : Check CheckResult
  kept : Nat
  reports : List Report

namespace Lane

/-- A check that has not taken a step yet. -/
def start (type : TypeDef) (c : Check CheckResult) : Lane := ⟨type, none, c, 0, []⟩

/-- The check once the finding is written that it holds a slot for. -/
def write (l : Lane) : Lane :=
  match l.held with
  | none => l
  | some d => { l with held := none, kept := l.kept + 1, reports := l.reports ++ [⟨d, true⟩] }

/-- The check after a step in which nothing is written. `free` tells whether there is a slot to
reserve. -/
def step (policy : Policy) (rule problem : String) (free : Bool) (l : Lane) : Lane :=
  match l.rest with
  | .done _ => l
  | .askKept next => { l with rest := next l.kept }
  | .report target severity confidence next =>
    let d : Defect := .ofType rule problem target severity confidence
    if policy.accepts d.severity d.confidence && free then
      { l with held := some d, rest := next true }
    else { l with rest := next false, reports := l.reports ++ [⟨d, false⟩] }

end Lane

/-- A log, and the checks of one rule that are being made over it. -/
structure Round where
  log : DefectLog
  lanes : List Lane

namespace Round

/-- The checks of types with a rule, none of which has taken a step yet. -/
def start {ρ : Type} [Rule ρ] (rule : ρ) (w : World) (m : Module) (log : DefectLog)
    (types : List TypeDef) : Round :=
  ⟨log, types.map fun t => .start t (Rule.check rule w m t)⟩

/-- The findings that have a slot and are not written yet. -/
def pending (r : Round) : List Defect := r.lanes.filterMap (·.held)

def reserved (r : Round) : Nat := r.log.reserved + r.pending.length

/-- Whether a slot is left under a limit, if there is one. -/
def hasSlot (r : Round) (limit : Option Nat) : Bool :=
  match limit with
  | none => true
  | some n => decide (r.reserved < n)

/-- One check takes a step: it writes the finding that it holds a slot for, or else goes on. -/
def turn (policy : Policy) (rule problem : String) (r : Round) (i : Nat) : Round :=
  match r.lanes[i]? with
  | none => r
  | some l =>
    match l.held with
    | some d => ⟨r.log.push d, r.lanes.set i l.write⟩
    | none => ⟨r.log, r.lanes.set i (l.step policy rule problem (r.hasSlot policy.limit))⟩

/-- The round after these turns, first one first. -/
def after (policy : Policy) (rule problem : String) (turns : List Nat) (r : Round) : Round :=
  turns.foldl (turn policy rule problem) r

/-- Every check that holds a slot writes its finding. -/
def settled (r : Round) : Round := ⟨r.pending.foldl .push r.log, r.lanes.map (·.write)⟩

end Round

/-- The turns of the checks in an audit, for each rule by its place among the rules. -/
def Plan : Type := Nat → List Nat

/-- No check takes a turn before its own is due: they are made one after the other. -/
def Plan.inOrder : Plan := fun _ => []

end ModuleAudit
