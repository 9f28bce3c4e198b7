import ModuleAudit.DefectLog

/-!
# Histories of a log

Defects come to a new log one after the other, some without a limit, and the others each with a limit
of its own. What the log keeps and what it answers is said here by the defects that it kept before, in
the order in which they came; the slots that it reserves do not show.

## Main definitions

* `DefectLog.Attempt`, `DefectLog.attempt`: a defect that comes to a log, and what becomes of both.
* `DefectLog.ofHistory`: the log after a history of attempts.
* `DefectLog.kept`: the defects of a history that the log keeps.

## Main statements

* `DefectLog.attempt_fst_iff`: a defect is kept exactly if its limit leaves room for one more.
* `DefectLog.toList_ofHistory`: a log holds the defects that it kept, and nothing else.
* `DefectLog.ofHistory_answers`: what a log keeps, and what it answers about it.
-/

namespace ModuleAudit.DefectLog

/-- A defect that comes to a log, without a limit or with one that counts for it alone. -/
inductive Attempt where
  | push (d : Defect)
  | tryPush (d : Defect) (limit : Option Nat)
deriving DecidableEq, Repr

namespace Attempt

def defect : Attempt → Defect
  | push d => d
  | tryPush d _ => d

def limit? : Attempt → Option Nat
  | push _ => none
  | tryPush _ limit => limit

end Attempt

/-- Whether a log keeps the defect that comes to it, and the log thereafter. -/
def attempt (log : DefectLog) : Attempt → Bool × DefectLog
  | .push d => (true, log.push d)
  | .tryPush d limit => log.tryPush d limit

/-- A new log after a history of attempts, first one first. -/
def ofHistory (history : List Attempt) : DefectLog :=
  history.foldl (fun log x => (log.attempt x).2) empty

/-- The defects of a history that a log says it keeps, first one first. -/
def keptFrom (log : DefectLog) : List Attempt → List Defect
  | [] => []
  | x :: rest =>
    match log.attempt x with
    | (true, log) => x.defect :: log.keptFrom rest
    | (false, log) => log.keptFrom rest

def kept (history : List Attempt) : List Defect := empty.keptFrom history

variable {log : DefectLog} {x : Attempt}

/-! ### One attempt -/

theorem attempt_eq (log : DefectLog) (x : Attempt) :
    log.attempt x = if log.hasRoom x.limit? then (true, log.push x.defect) else (false, log) := by
  cases x <;> rfl

theorem attempt_of_hasRoom (h : log.hasRoom x.limit? = true) :
    log.attempt x = (true, log.push x.defect) := by
  rw [attempt_eq, if_pos h]

theorem attempt_of_full (h : log.hasRoom x.limit? = false) : log.attempt x = (false, log) := by
  rw [attempt_eq, h]
  rfl

/-- A defect is kept exactly if its limit leaves room for one more. -/
theorem attempt_fst_iff :
    (log.attempt x).1 = true ↔ ∀ n, x.limit? = some n → log.toList.length < n := by
  rw [length_toList, ← hasRoom_iff]
  cases h : log.hasRoom x.limit? with
  | true => simp [attempt_of_hasRoom h]
  | false => simp [attempt_of_full h]

/-- A defect that is not kept leaves the log as it was. -/
theorem attempt_snd_of_not_kept (h : (log.attempt x).1 = false) : (log.attempt x).2 = log := by
  cases hroom : log.hasRoom x.limit? with
  | true =>
    rw [attempt_of_hasRoom hroom] at h
    cases h
  | false => rw [attempt_of_full hroom]

/-! ### A history of attempts -/

theorem ofHistory_concat (history : List Attempt) (x : Attempt) :
    ofHistory (history ++ [x]) = ((ofHistory history).attempt x).2 := by
  unfold ofHistory
  rw [List.foldl_append]
  rfl

/-- What is kept from here on comes behind what the log holds already. -/
theorem toList_foldl_attempt (log : DefectLog) (history : List Attempt) :
    (history.foldl (fun log x => (log.attempt x).2) log).toList =
      log.toList ++ log.keptFrom history := by
  induction history generalizing log with
  | nil => rw [List.foldl_nil, keptFrom, List.append_nil]
  | cons x rest ih =>
    rw [List.foldl_cons, ih, keptFrom]
    cases hroom : log.hasRoom x.limit? with
    | true =>
      rw [attempt_of_hasRoom hroom, toList_push, List.append_assoc]
      rfl
    | false => rw [attempt_of_full hroom]

/-- A log holds the defects that it kept, and nothing else. -/
theorem toList_ofHistory (history : List Attempt) : (ofHistory history).toList = kept history :=
  toList_foldl_attempt empty history

/-- Whatever limits the defects of a history come with: the next one is kept exactly if it has no limit,
or fewer defects are recorded so far; if it is not kept, it changes nothing. The log holds the defects
that were kept, in the order in which they came, with a slot reserved for each of them and no other; and
what it answers about them is what they are. -/
theorem ofHistory_answers (history : List Attempt) :
    (∀ x, ((ofHistory history).attempt x).1 = true ↔
      x.limit? = none ∨ ∃ n, x.limit? = some n ∧ (kept history).length < n) ∧
    (∀ x, ((ofHistory history).attempt x).1 = false →
      ofHistory (history ++ [x]) = ofHistory history) ∧
    (ofHistory history).toList = kept history ∧
    (ofHistory history).reserved = (kept history).length ∧
    ((ofHistory history).hasAny = true ↔ kept history ≠ []) ∧
    (ofHistory history).count = (kept history).length ∧
    (∀ rule, (ofHistory history).byRule rule = (kept history).filter (·.rule = rule)) ∧
    (∀ token, (ofHistory history).forTarget token = (kept history).filter (·.token = token)) ∧
    ∀ severity, (ofHistory history).countAtLeast severity =
      ((kept history).filter (severity ≤ ·.severity)).length := by
  have hlist := toList_ofHistory history
  have hcount : (ofHistory history).count = (kept history).length := by
    rw [← hlist, length_toList]
  refine ⟨fun x => ?_, fun x h => ?_, hlist, ?_, ?_, hcount, fun rule => ?_, fun token => ?_,
    fun severity => ?_⟩
  · rw [attempt_fst_iff, hlist]
    cases x.limit? <;> simp
  · rw [ofHistory_concat, attempt_snd_of_not_kept h]
  · exact (ofHistory history).reserved_eq.trans hcount
  · rw [hasAny, decide_eq_true_iff, hcount, List.length_pos_iff]
  · rw [byRule, hlist]
    rfl
  · rw [forTarget, hlist]
    rfl
  · rw [countAtLeast, hlist, List.countP_eq_length_filter]

/-- Each limit counts for one attempt alone: it may be higher or lower than those before it. -/
example (d : Defect) : kept [.tryPush d (some 0), .push d, .tryPush d (some 0xFFFFFFFFFFFFFFFF),
    .tryPush d (some 2), .tryPush d none] = [d, d, d] := rfl

end ModuleAudit.DefectLog
