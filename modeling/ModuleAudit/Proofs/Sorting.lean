import ModuleAudit.DefectLog

/-!
# The order of a summary

A summary lists defects by type and rule, and those that agree in both as they were recorded. So it
does not show in which order findings about different types or of different rules came in: two logs
have the same summary if they hold the same defects of each type and rule, each time in the same order.

## Main statements

* `DefectLog.filter_sorted`: defects of one type and rule are listed as they were recorded.
* `DefectLog.summary_congr`: logs that agree for each type and rule have the same summary.
-/

namespace ModuleAudit

namespace Defect

variable {d e : Defect} {l l' rest : List Defect}

/-- Whether a summary may list a defect before another one. -/
def le (d e : Defect) : Bool := Dictionary.le d.sortKey e.sortKey

theorem le_of_sortKey_eq (h : d.sortKey = e.sortKey) : le d e = true := by
  rw [le, h]
  exact Dictionary.le_refl e.sortKey

theorem le_trans (d e f : Defect) (h : le d e = true) (h' : le e f = true) : le d f = true :=
  Dictionary.le_trans h h'

theorem le_total (d e : Defect) : (le d e || le e d) = true := by
  rw [Bool.or_eq_true]
  exact Dictionary.le_total d.sortKey e.sortKey

/-- The order in which a summary lists its defects. -/
def Ordered (l : List Defect) : Prop := l.Pairwise fun d e => le d e = true

theorem Ordered.le_of_mem (h : Ordered (d :: rest)) (he : e ∈ d :: rest) : le d e = true := by
  rcases List.mem_cons.mp he with rfl | he
  · exact le_of_sortKey_eq rfl
  · exact List.rel_of_pairwise_cons h he

theorem mem_of_filter_sortKey_eq
    (h : ∀ key, l'.filter (·.sortKey == key) = l.filter (·.sortKey == key)) (hd : d ∈ l) :
    d ∈ l' := by
  have hkey : d ∈ l.filter (·.sortKey == d.sortKey) :=
    List.mem_filter.mpr ⟨hd, beq_self_eq_true d.sortKey⟩
  rw [← h] at hkey
  exact (List.mem_filter.mp hkey).1

/-- An ordered list of defects can be told from its defects of each type and rule. -/
theorem Ordered.eq_of_filter_sortKey_eq (hl : Ordered l) (hl' : Ordered l')
    (h : ∀ key, l'.filter (·.sortKey == key) = l.filter (·.sortKey == key)) : l' = l := by
  induction l generalizing l' with
  | nil => exact List.eq_nil_iff_forall_not_mem.mpr fun d hd =>
      List.not_mem_nil (mem_of_filter_sortKey_eq (fun key => (h key).symm) hd)
  | cons d rest ih =>
    have hd := mem_of_filter_sortKey_eq h List.mem_cons_self
    cases l' with
    | nil => exact absurd hd List.not_mem_nil
    | cons e rest' =>
      have he := mem_of_filter_sortKey_eq (fun key => (h key).symm) (List.mem_cons_self (a := e))
      -- each list holds the head of the other, so both heads have the least key
      have hkey : e.sortKey = d.sortKey :=
        Dictionary.le_antisymm (hl'.le_of_mem hd) (hl.le_of_mem he)
      have hhead : e = d := by
        have hfilter := h d.sortKey
        rw [List.filter_cons, List.filter_cons, if_pos (beq_iff_eq.mpr hkey),
          if_pos (beq_self_eq_true d.sortKey)] at hfilter
        exact (List.cons.inj hfilter).1
      subst hhead
      have hrest : ∀ key, rest'.filter (·.sortKey == key) = rest.filter (·.sortKey == key) := by
        intro key
        have hfilter := h key
        rw [List.filter_cons, List.filter_cons] at hfilter
        split at hfilter
        · exact (List.cons.inj hfilter).2
        · exact hfilter
      rw [ih (List.Pairwise.of_cons hl) (List.Pairwise.of_cons hl') hrest]

/-- Where defects of one type and rule are equal, rearranging does not show for any type and rule. -/
theorem filter_sortKey_eq_of_perm (hperm : l'.Perm l)
    (h : ∀ d ∈ l, ∀ e ∈ l, d.sortKey = e.sortKey → d = e) (key : List Nat) :
    l'.filter (·.sortKey == key) = l.filter (·.sortKey == key) := by
  have hfilter := hperm.filter (·.sortKey == key)
  have hequal : ∀ d ∈ l.filter (·.sortKey == key), ∀ e ∈ l.filter (·.sortKey == key), d = e := by
    intro d hd e he
    obtain ⟨hd, hdkey⟩ := List.mem_filter.mp hd
    obtain ⟨he, hekey⟩ := List.mem_filter.mp he
    exact h d hd e he ((beq_iff_eq.mp hdkey).trans (beq_iff_eq.mp hekey).symm)
  refine List.Perm.eq_of_pairwise (fun d e _ _ heq _ => heq)
    (List.pairwise_of_forall_mem_list fun d hd e he => ?_)
    (List.pairwise_of_forall_mem_list hequal) hfilter
  exact hequal d (hfilter.mem_iff.mp hd) e (hfilter.mem_iff.mp he)

end Defect

namespace DefectLog

variable {log log' : DefectLog}

theorem ordered_sorted (log : DefectLog) : Defect.Ordered log.sorted :=
  List.pairwise_mergeSort Defect.le_trans Defect.le_total log.toList

theorem sorted_perm (log : DefectLog) : log.sorted.Perm log.toList := List.mergeSort_perm _ _

/-- Defects of one type and rule are listed as they were recorded. -/
theorem filter_sorted (log : DefectLog) (key : List Nat) :
    log.sorted.filter (·.sortKey == key) = log.toList.filter (·.sortKey == key) := by
  have hsame : ∀ d ∈ log.toList.filter (·.sortKey == key), d.sortKey = key :=
    fun d hd => beq_iff_eq.mp (List.mem_filter.mp hd).2
  have hordered : Defect.Ordered (log.toList.filter (·.sortKey == key)) :=
    List.pairwise_of_forall_mem_list fun d hd e he =>
      Defect.le_of_sortKey_eq ((hsame d hd).trans (hsame e he).symm)
  -- a part of the log that is in order already stays as it is
  have hsublist : (log.toList.filter (·.sortKey == key)).Sublist log.sorted :=
    List.sublist_mergeSort Defect.le_trans Defect.le_total hordered List.filter_sublist
  have hfilter := hsublist.filter (·.sortKey == key)
  rw [List.filter_filter, List.filter_congr (fun d _ => Bool.and_self _)] at hfilter
  exact (hfilter.eq_of_length (log.sorted_perm.filter _).length_eq.symm).symm

theorem sorted_congr
    (h : ∀ key, log'.toList.filter (·.sortKey == key) = log.toList.filter (·.sortKey == key)) :
    log'.sorted = log.sorted := by
  refine log.ordered_sorted.eq_of_filter_sortKey_eq log'.ordered_sorted fun key => ?_
  rw [filter_sorted, filter_sorted, h]

/-- Logs that hold the same defects of each type and rule, recorded in the same order, have the same
summary. -/
theorem summary_congr
    (h : ∀ key, log'.toList.filter (·.sortKey == key) = log.toList.filter (·.sortKey == key)) :
    log'.summary = log.summary := by
  have hcount : log'.count = log.count := by
    rw [← length_toList, ← length_toList, ← log'.sorted_perm.length_eq, sorted_congr h,
      log.sorted_perm.length_eq]
  rw [summary, summary, sorted_congr h, hcount]

end DefectLog

end ModuleAudit
