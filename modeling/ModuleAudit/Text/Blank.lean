/-!
# White space at the ends of a text

The characters that Unicode gives the property `White_Space`, and the removal of a class of
characters from the front, from the back, or from both ends of a text.

## Main definitions

* `Blank.ranges`, `Blank.isBlank`: the table of the property and the test it defines.
* `Blank.dropTrailing`: a text without the longest run at its end that a test accepts.
* `Blank.trim`: a text without the white space at its ends.
-/

namespace ModuleAudit.Blank

/-- The code points with the property `White_Space`, as inclusive ranges in increasing order. -/
def ranges : List (Nat × Nat) :=
  [(0x09, 0x0D), (0x20, 0x20), (0x85, 0x85), (0xA0, 0xA0), (0x1680, 0x1680), (0x2000, 0x200A),
    (0x2028, 0x2029), (0x202F, 0x202F), (0x205F, 0x205F), (0x3000, 0x3000)]

def isBlank (c : Char) : Bool :=
  ranges.any fun range => decide (range.1 ≤ c.toNat) && decide (c.toNat ≤ range.2)

/-- A text without the longest run at its end whose characters all pass the test. -/
def dropTrailing (p : Char → Bool) (cs : List Char) : List Char :=
  (cs.reverse.dropWhile p).reverse

def trim (cs : List Char) : List Char := dropTrailing isBlank (cs.dropWhile isBlank)

theorem isBlank_of_isWhitespace {c : Char} (h : c.isWhitespace = true) : isBlank c = true := by
  simp only [Char.isWhitespace, Bool.or_eq_true, decide_eq_true_eq] at h
  rcases h with ((rfl | rfl) | rfl) | rfl <;> decide

theorem isBlank_eq_false_of_isDigit {c : Char} (h : c.isDigit = true) : isBlank c = false := by
  have hrange : 48 ≤ c.toNat ∧ c.toNat ≤ 57 := by
    simpa [Char.isDigit, UInt32.le_iff_toNat_le] using h
  simp [isBlank, ranges]
  omega

theorem exists_dropTrailing_append (p : Char → Bool) (cs : List Char) :
    ∃ run, (∀ c ∈ run, p c = true) ∧ cs = dropTrailing p cs ++ run := by
  refine ⟨(cs.reverse.takeWhile p).reverse, ?_, ?_⟩
  · intro c hc
    exact List.all_eq_true.mp List.all_takeWhile c (List.mem_reverse.mp hc)
  · rw [dropTrailing, ← List.reverse_append, List.takeWhile_append_dropWhile, List.reverse_reverse]

theorem dropTrailing_append {p : Char → Bool} {run : List Char} (hrun : ∀ c ∈ run, p c = true)
    (cs : List Char) : dropTrailing p (cs ++ run) = dropTrailing p cs := by
  have hrev : ∀ c ∈ run.reverse, p c = true := fun c hc => hrun c (List.mem_reverse.mp hc)
  rw [dropTrailing, List.reverse_append, List.dropWhile_append_of_pos hrev, dropTrailing]

/-- The run at the end goes no further than a character that fails the test. -/
theorem dropTrailing_append_cons {p : Char → Bool} {c : Char} (hc : p c = false)
    (cs rest : List Char) : dropTrailing p (cs ++ c :: rest) = cs ++ c :: dropTrailing p rest := by
  have hrev : (cs ++ c :: rest).reverse = rest.reverse ++ c :: cs.reverse := by simp
  rw [dropTrailing, hrev, List.dropWhile_append, List.dropWhile_cons_of_neg (by simp [hc])]
  by_cases hrest : rest.reverse.dropWhile p = []
  · simp [dropTrailing, hrest]
  · simp [dropTrailing, hrest]

theorem dropTrailing_eq_self {p : Char → Bool} {cs : List Char}
    (h : ∀ c ∈ cs.getLast?, p c = false) : dropTrailing p cs = cs := by
  rcases List.eq_nil_or_concat cs with rfl | ⟨init, c, rfl⟩
  · rfl
  · rw [List.concat_eq_append] at h ⊢
    exact dropTrailing_append_cons (h c (by simp)) init []

theorem mem_head?_of_dropTrailing {p : Char → Bool} {cs : List Char} {c : Char}
    (h : c ∈ (dropTrailing p cs).head?) : c ∈ cs.head? := by
  obtain ⟨run, -, hcs⟩ := exists_dropTrailing_append p cs
  rw [hcs, List.head?_append, Option.mem_def.mp h]
  rfl

theorem eq_false_of_mem_getLast?_dropTrailing {p : Char → Bool} {cs : List Char} {c : Char}
    (h : c ∈ (dropTrailing p cs).getLast?) : p c = false := by
  rw [dropTrailing, List.getLast?_reverse] at h
  have hhead := List.head?_dropWhile_not p cs.reverse
  rwa [Option.mem_def.mp h] at hhead

/-- White space around a text that has none at its ends is all that is trimmed off. -/
theorem trim_eq {before core after : List Char} (hbefore : ∀ c ∈ before, isBlank c = true)
    (hafter : ∀ c ∈ after, isBlank c = true) (hhead : ∀ c ∈ core.head?, isBlank c = false)
    (hlast : ∀ c ∈ core.getLast?, isBlank c = false) :
    trim (before ++ core ++ after) = core := by
  rw [trim, List.append_assoc, List.dropWhile_append_of_pos hbefore]
  cases core with
  | nil =>
    rw [List.nil_append, ← List.append_nil after, List.dropWhile_append_of_pos hafter]
    rfl
  | cons c rest =>
    have hc : ¬isBlank c = true := by simp [hhead c rfl]
    rw [List.cons_append, List.dropWhile_cons_of_neg hc, ← List.cons_append,
      dropTrailing_append hafter, dropTrailing_eq_self hlast]

end ModuleAudit.Blank
