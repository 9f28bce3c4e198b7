import Mathlib.Algebra.Group.Nat.Defs
import Mathlib.Data.List.Lex
import Mathlib.Data.Prod.Lex
import ModuleAudit.Token
import ModuleAudit.Text.Dictionary

/-!
# The order of tokens

Tokens come in the order of their tables, and tokens of one table in the order of their rows. Since
every token is printed with all of its eight digits, the printed forms sort in the same order.

## Main statements

* `Hex.digits_inj`: a number that fits the width is known from its digits.
* `Hex.lex_digits_iff`: digits of a fixed width sort as their numbers do.
* `Token.lt_iff_lex_parts`: the order of tokens is that of tables first and rows second.
* `Token.lt_iff_lex_text`: the order of tokens is the dictionary order of their printed forms.
* `Token.lt_iff_parts_iff_text`: a token, its two parts and its printed form carry the same
  information in the same order.
-/

namespace ModuleAudit

namespace Hex

theorem div_lt_pow {width n : Nat} (h : n < 16 ^ (width + 1)) : n / 16 < 16 ^ width := by
  rw [Nat.pow_succ, Nat.mul_comm] at h
  exact Nat.div_lt_of_lt_mul h

/-- A number that fits the width is known from its digits. -/
theorem digits_inj {width m n : Nat} (hm : m < 16 ^ width) (hn : n < 16 ^ width) :
    digits width m = digits width n ↔ m = n := by
  induction width generalizing m n with
  | zero =>
    rw [Nat.pow_zero] at hm hn
    exact iff_of_true rfl (by omega)
  | succ width ih =>
    constructor
    · intro h
      obtain ⟨hinit, hlast⟩ := List.append_inj' h rfl
      have hdiv := (ih (div_lt_pow hm) (div_lt_pow hn)).mp hinit
      have hmod := (digitChar_inj (Nat.mod_lt m (by decide)) (Nat.mod_lt n (by decide))).mp
        (List.singleton_inj.mp hlast)
      omega
    · rintro rfl
      rfl

theorem lex_digits_iff {width m n : Nat} (hm : m < 16 ^ width) (hn : n < 16 ^ width) :
    List.Lex (· < ·) ((digits width m).map Char.toNat) ((digits width n).map Char.toNat) ↔
      m < n := by
  -- The last digit decides only where all digits before it agree, and these are those of `m / 16`
  -- and `n / 16`.
  induction width generalizing m n with
  | zero =>
    rw [Nat.pow_zero] at hm hn
    exact iff_of_false List.not_lex_nil (by omega)
  | succ width ih =>
    have hmdiv := div_lt_pow hm
    have hndiv := div_lt_pow hn
    have hlen : ((digits width (m / 16)).map Char.toNat).length =
        ((digits width (n / 16)).map Char.toNat).length := by simp
    have hinit : (digits width (m / 16)).map Char.toNat = (digits width (n / 16)).map Char.toNat ↔
        m / 16 = n / 16 := by
      rw [List.map_inj_right fun _ _ => Char.toNat_inj.mp, digits_inj hmdiv hndiv]
    have hlast : (digitChar (m % 16)).toNat < (digitChar (n % 16)).toNat ↔ m % 16 < n % 16 :=
      toNat_digitChar_lt_iff (Nat.mod_lt m (by decide)) (Nat.mod_lt n (by decide))
    rw [digits, digits, List.map_append, List.map_append, Dictionary.lex_append_iff hlen,
      ih hmdiv hndiv, hinit, List.map_singleton, List.map_singleton, List.lex_singleton_iff, hlast]
    omega

end Hex

namespace Token

/-- Tables decide first, rows second. -/
theorem lt_iff_lex_parts {a b : Token} :
    a < b ↔ Prod.Lex (· < ·) (· < ·) (a.table, a.row) (b.table, b.row) := by
  rw [Prod.lex_def, UInt8.lt_iff_toNat_lt, ← UInt8.toNat_inj, toNat_table, toNat_table, lt_iff, row,
    row]
  omega

example : typeRef 9 < typeDef 1 := by decide

theorem bytes_text (t : Token) :
    Dictionary.bytes t.text = ('0' :: 'x' :: Hex.digits 8 t.value.toNat).map Char.toNat := by
  refine Dictionary.bytes_ofList fun c hc => ?_
  rcases List.mem_cons.mp hc with rfl | hc
  · decide
  · rcases List.mem_cons.mp hc with rfl | hc
    · decide
    · exact Hex.toNat_lt_of_mem_digits hc

theorem lt_iff_lex_text {a b : Token} :
    a < b ↔ List.Lex (· < ·) (Dictionary.bytes a.text) (Dictionary.bytes b.text) := by
  rw [bytes_text, bytes_text, List.map_cons, List.map_cons, List.map_cons, List.map_cons,
    List.lex_cons_iff, List.lex_cons_iff, Hex.lex_digits_iff a.toNat_value_lt b.toNat_value_lt,
    lt_iff]

theorem text_inj {a b : Token} : a.text = b.text ↔ a = b := by
  rw [text, text, String.ofList_inj, List.cons_inj_right, List.cons_inj_right,
    Hex.digits_inj a.toNat_value_lt b.toNat_value_lt, toNat_value_inj]

/-- A token is the high byte and the low 24 bits of its value, and a table with any row, of which
the low 24 bits count, gives a token with just these parts. The order of tokens is that of their
parts, table first, and that of their printed forms, byte by byte, and no two tokens are printed
alike. -/
theorem lt_iff_parts_iff_text (table : UInt8) (row : UInt32) (a b : Token) :
    (a.table = (a.value >>> 24).toUInt8 ∧ a.row = (a.value &&& 0x00FFFFFF).toNat ∧
      ofParts a.table a.row = a) ∧
    ((ofParts table row.toNat).value = table.toUInt32 <<< 24 ||| (row &&& 0x00FFFFFF) ∧
      (ofParts table row.toNat).table = table ∧
      (ofParts table row.toNat).row = row.toNat % 0x1000000) ∧
    (a < b ↔ Prod.Lex (· < ·) (· < ·) (a.table, a.row) (b.table, b.row)) ∧
    (a < b ↔ List.Lex (· < ·) (Dictionary.bytes a.text) (Dictionary.bytes b.text)) ∧
    (a.text = b.text ↔ a = b) :=
  ⟨⟨table_eq_shiftRight a, row_eq_and a, ofParts_table_row a⟩,
    ⟨value_ofParts table row, table_ofParts table row.toNat, row_ofParts table row.toNat⟩,
    lt_iff_lex_parts, lt_iff_lex_text, text_inj⟩

end Token

end ModuleAudit
