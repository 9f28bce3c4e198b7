/-!
# Hexadecimal digits of a fixed width

Numbers that name things are printed with leading zeros, so that every name has the same length
and names sort as text in the order of their numbers.

## Main definitions

* `Hex.digitChar`: the character of one digit, lowercase.
* `Hex.digits`: the lowest `width` digits of a number, the last of them last.
-/

namespace ModuleAudit.Hex

def digitChar (d : Nat) : Char :=
  Char.ofNat (if d < 10 then 48 + d else 87 + d)

/-- The lowest `width` hexadecimal digits of `n`, the most significant one first. -/
def digits : Nat → Nat → List Char
  | 0, _ => []
  | width + 1, n => digits width (n / 16) ++ [digitChar (n % 16)]

@[simp] theorem length_digits (width n : Nat) : (digits width n).length = width := by
  induction width generalizing n with
  | zero => rfl
  | succ width ih => simp [digits, ih]

theorem toNat_digitChar {d : Nat} (h : d < 16) :
    (digitChar d).toNat = if d < 10 then 48 + d else 87 + d := by
  have key : ∀ d : Fin 16, (digitChar d).toNat = if d.val < 10 then 48 + d.val else 87 + d.val := by
    decide
  exact key ⟨d, h⟩

/-- Digits sort by their values, since the letters come after the decimal digits. -/
theorem toNat_digitChar_lt_iff {a b : Nat} (ha : a < 16) (hb : b < 16) :
    (digitChar a).toNat < (digitChar b).toNat ↔ a < b := by
  rw [toNat_digitChar ha, toNat_digitChar hb]
  split <;> split <;> omega

theorem digitChar_inj {a b : Nat} (ha : a < 16) (hb : b < 16) :
    digitChar a = digitChar b ↔ a = b := by
  constructor
  · intro h
    have hab := congrArg Char.toNat h
    rw [toNat_digitChar ha, toNat_digitChar hb] at hab
    split at hab <;> split at hab <;> omega
  · rintro rfl
    rfl

theorem toNat_lt_of_mem_digits {width n : Nat} {c : Char} (h : c ∈ digits width n) :
    c.toNat < 128 := by
  induction width generalizing n with
  | zero => cases h
  | succ width ih =>
    rcases List.mem_append.mp h with h | h
    · exact ih h
    · rw [List.mem_singleton.mp h, toNat_digitChar (Nat.mod_lt n (by decide))]
      split <;> omega

end ModuleAudit.Hex
