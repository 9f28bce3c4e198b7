/-!
# Decimal numerals of 32-bit numbers

Two spellings are read: a bare run of decimal digits, and the same with a plus sign allowed in
front. Leading zeros do not matter; a number that needs more than 32 bits is refused.

## Main definitions

* `Numeral.value`: the number that a run of decimal digits writes.
* `Numeral.bare?`: reads a non-empty run of digits.
* `Numeral.signed?`: reads a non-empty run of digits behind at most one plus sign.
-/

namespace ModuleAudit.Numeral

def value (digits : List Char) : Nat :=
  digits.foldl (fun n c => 10 * n + (c.toNat - 48)) 0

/-- Reads a non-empty run of ASCII decimal digits whose number fits 32 bits. -/
def bare? (cs : List Char) : Option Nat :=
  if cs ≠ [] ∧ cs.all Char.isDigit ∧ value cs < 0x100000000 then some (value cs) else none

/-- Reads a run of digits as `bare?` does, with one plus sign allowed in front. -/
def signed? : List Char → Option Nat
  | '+' :: cs => bare? cs
  | cs => bare? cs

theorem bare?_eq_some_iff {cs : List Char} {n : Nat} :
    bare? cs = some n ↔
      cs ≠ [] ∧ (∀ c ∈ cs, c.isDigit = true) ∧ value cs < 0x100000000 ∧ value cs = n := by
  unfold bare?
  split
  · next h =>
    obtain ⟨hne, hall, hlt⟩ := h
    rw [List.all_eq_true] at hall
    constructor
    · intro heq
      exact ⟨hne, hall, hlt, Option.some.inj heq⟩
    · rintro ⟨-, -, -, hval⟩
      exact congrArg some hval
  · next h =>
    rw [List.all_eq_true] at h
    constructor
    · simp
    · rintro ⟨hne, hall, hlt, -⟩
      exact absurd ⟨hne, hall, hlt⟩ h

/-- A run of digits is read alike where a sign is allowed in front and where none is. -/
theorem signed?_eq_bare? {digits : List Char} (h : ∀ c ∈ digits, c.isDigit = true) :
    signed? digits = bare? digits := by
  unfold signed?
  split
  · cases h '+' List.mem_cons_self
  · rfl

theorem signed?_eq_some_iff {cs : List Char} {n : Nat} :
    signed? cs = some n ↔
      ∃ sign digits, (sign = [] ∨ sign = ['+']) ∧ cs = sign ++ digits ∧ bare? digits = some n := by
  constructor
  · intro h
    unfold signed? at h
    split at h
    · next digits => exact ⟨['+'], digits, .inr rfl, rfl, h⟩
    · exact ⟨[], cs, .inl rfl, rfl, h⟩
  · rintro ⟨sign, digits, rfl | rfl, rfl, h⟩
    · rw [signed?_eq_bare? (bare?_eq_some_iff.mp h).2.1]
      exact h
    · exact h

theorem value_zeros (k : Nat) (digits : List Char) :
    value (List.replicate k '0' ++ digits) = value digits := by
  induction k with
  | zero => rfl
  | succ k ih => exact ih

end ModuleAudit.Numeral
