import ModuleAudit.Defect

/-!
# Defect logs

The defects of a run in the order in which they were recorded. Nothing recorded is ever taken back.
A limit bounds the log as a whole, and each attempt to record may bring a limit of its own: a slot
is reserved before the defect is written to it, and none is reserved once the limit is reached.

## Main definitions

* `DefectLog`: the entries, and the count of reserved slots, which is the count of entries.
* `DefectLog.push`, `DefectLog.tryPush`: recording without and with a limit.
* `DefectLog.byRule`, `forTarget`, `countAtLeast`: what the log holds of one kind.
* `DefectLog.summary`: all entries, by type and rule.
-/

namespace ModuleAudit

/-- The recorded defects, oldest first. Each entry has a slot of its own. -/
structure DefectLog where
  entries : Array Defect
  reserved : Nat
  reserved_eq : reserved = entries.size

namespace DefectLog

def empty : DefectLog := ⟨#[], 0, rfl⟩

instance : Inhabited DefectLog := ⟨empty⟩

def toList (log : DefectLog) : List Defect := log.entries.toList

def count (log : DefectLog) : Nat := log.entries.size

def hasAny (log : DefectLog) : Bool := decide (0 < log.count)

def push (log : DefectLog) (d : Defect) : DefectLog where
  entries := log.entries.push d
  reserved := log.reserved + 1
  reserved_eq := by simp [log.reserved_eq]

/-- Whether a slot is left under a limit, if there is one. -/
def hasRoom (log : DefectLog) (limit : Option Nat) : Bool :=
  match limit with
  | none => true
  | some n => decide (log.reserved < n)

/-- Records a defect if there is room under the limit, and tells whether there was. -/
def tryPush (log : DefectLog) (d : Defect) (limit : Option Nat) : Bool × DefectLog :=
  if log.hasRoom limit then (true, log.push d) else (false, log)

def byRule (log : DefectLog) (rule : String) : List Defect := log.toList.filter (·.rule == rule)

def forTarget (log : DefectLog) (token : Token) : List Defect :=
  log.toList.filter (·.token == token)

def countAtLeast (log : DefectLog) (severity : Severity) : Nat :=
  log.toList.countP fun d => decide (severity ≤ d.severity)

/-- The entries by type and rule; entries that agree in both stay in recording order. -/
def sorted (log : DefectLog) : List Defect :=
  log.toList.mergeSort fun a b => Dictionary.le a.sortKey b.sortKey

def summary (log : DefectLog) : String :=
  log.sorted.foldl (fun out d => out ++ "  " ++ d.text ++ "\n") s!"Defects: {log.count}\n"

@[simp] theorem length_toList (log : DefectLog) : log.toList.length = log.count := by
  simp [toList, count]

/-- A log is known from its entries. -/
theorem eq_of_toList_eq {log log' : DefectLog} (h : log.toList = log'.toList) : log = log' := by
  obtain ⟨entries, reserved, hreserved⟩ := log
  obtain ⟨entries', reserved', hreserved'⟩ := log'
  obtain rfl : entries = entries' := Array.toList_inj.mp h
  subst hreserved hreserved'
  rfl

@[simp] theorem toList_push (log : DefectLog) (d : Defect) :
    (log.push d).toList = log.toList ++ [d] := by
  simp [push, toList]

@[simp] theorem count_push (log : DefectLog) (d : Defect) :
    (log.push d).count = log.count + 1 := by
  simp [push, count]

theorem hasRoom_iff {log : DefectLog} {limit : Option Nat} :
    log.hasRoom limit = true ↔ ∀ n, limit = some n → log.count < n := by
  cases limit <;> simp [hasRoom, log.reserved_eq, count]

theorem hasRoom_eq_false_iff {log : DefectLog} {limit : Option Nat} :
    log.hasRoom limit = false ↔ ∃ n, limit = some n ∧ n ≤ log.count := by
  cases limit <;> simp [hasRoom, log.reserved_eq, count]

/-- What is kept goes to the end of the log; otherwise the log stays as it is. -/
theorem toList_tryPush (log : DefectLog) (d : Defect) (limit : Option Nat) :
    (log.tryPush d limit).2.toList =
      if (log.tryPush d limit).1 then log.toList ++ [d] else log.toList := by
  by_cases h : log.hasRoom limit = true <;> simp [tryPush, h]

end DefectLog

end ModuleAudit
