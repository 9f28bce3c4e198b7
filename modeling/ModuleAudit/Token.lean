import ModuleAudit.Text.Hex

/-!
# Metadata tokens

A token is the 32-bit name of one row of one metadata table: its high byte says which table, its
low 24 bits say which row. Row zero names nothing, and the all-zero token stands for "not numbered
yet".

## Main definitions

* `Table`: the tables that definitions, references and members live in.
* `Token.table`, `Token.row`, `Token.ofParts`: the two parts of a token, and the token of two parts.
* `Token.text`: the printed form, `0x` and eight lowercase hexadecimal digits.

## Design notes

Parts are read by division and remainder on natural numbers, so that facts about tokens are facts of
linear arithmetic. `ofParts` keeps only the low 24 bits of a row: a row beyond the last one wraps.
-/

namespace ModuleAudit

namespace Table

def typeRef : UInt8 := 0x01

def typeDef : UInt8 := 0x02

def field : UInt8 := 0x04

def methodDef : UInt8 := 0x06

/-- Types given by a signature, such as generic instantiations. -/
def typeSpec : UInt8 := 0x1B

end Table

/-- The name of a row of a metadata table. -/
structure Token where
  value : UInt32
deriving DecidableEq, Inhabited, Repr

namespace Token

/-- The token that names no row of any table. -/
def null : Token := ⟨0⟩

def table (t : Token) : UInt8 := UInt8.ofNat (t.value.toNat / 0x1000000)

def row (t : Token) : Nat := t.value.toNat % 0x1000000

/-- The token of a table and a row, of which only the low 24 bits count. -/
def ofParts (table : UInt8) (row : Nat) : Token :=
  ⟨UInt32.ofNat (table.toNat * 0x1000000 + row % 0x1000000)⟩

def typeDef (row : Nat) : Token := ofParts Table.typeDef row

def typeRef (row : Nat) : Token := ofParts Table.typeRef row

def methodDef (row : Nat) : Token := ofParts Table.methodDef row

def field (row : Nat) : Token := ofParts Table.field row

/-- Whether the token stands for "not numbered yet". -/
def isNull (t : Token) : Bool := t.value == 0

def isType (t : Token) : Bool :=
  t.table == Table.typeDef || t.table == Table.typeRef || t.table == Table.typeSpec

/-- Whether the token names a possible row of the table of defined types. -/
def isDefinition (t : Token) : Bool := t.table == Table.typeDef && t.row != 0

/-- The printed form of a token: `0x` and eight lowercase hexadecimal digits. -/
def text (t : Token) : String := String.ofList ('0' :: 'x' :: Hex.digits 8 t.value.toNat)

def describe (t : Token) : String :=
  let table := String.ofList ('0' :: 'x' :: Hex.digits 2 t.table.toNat)
  s!"Token({t.text}, table: {table}, row: {t.row})"

instance : LT Token := ⟨fun a b => a.value.toNat < b.value.toNat⟩

instance : LE Token := ⟨fun a b => a.value.toNat ≤ b.value.toNat⟩

instance (a b : Token) : Decidable (a < b) :=
  inferInstanceAs (Decidable (a.value.toNat < b.value.toNat))

instance (a b : Token) : Decidable (a ≤ b) :=
  inferInstanceAs (Decidable (a.value.toNat ≤ b.value.toNat))

theorem lt_iff {a b : Token} : a < b ↔ a.value.toNat < b.value.toNat := Iff.rfl

theorem le_iff {a b : Token} : a ≤ b ↔ a.value.toNat ≤ b.value.toNat := Iff.rfl

theorem toNat_value_lt (t : Token) : t.value.toNat < 0x100000000 := t.value.toNat_lt

theorem ext_toNat {a b : Token} (h : a.value.toNat = b.value.toNat) : a = b := by
  cases a
  cases b
  exact congrArg Token.mk (UInt32.toNat_inj.mp h)

theorem toNat_value_inj {a b : Token} : a.value.toNat = b.value.toNat ↔ a = b := by
  constructor
  · exact ext_toNat
  · rintro rfl
    rfl

theorem lt_irrefl (a : Token) : ¬a < a := Nat.lt_irrefl _

theorem lt_trans {a b c : Token} (hab : a < b) (hbc : b < c) : a < c := Nat.lt_trans hab hbc

theorem le_of_lt {a b : Token} (h : a < b) : a ≤ b := Nat.le_of_lt h

theorem ne_of_lt {a b : Token} (h : a < b) : a ≠ b := by
  rintro rfl
  exact lt_irrefl a h

theorem le_refl (a : Token) : a ≤ a := Nat.le_refl _

theorem le_trans {a b c : Token} (hab : a ≤ b) (hbc : b ≤ c) : a ≤ c := Nat.le_trans hab hbc

theorem le_total (a b : Token) : a ≤ b ∨ b ≤ a := Nat.le_total _ _

theorem le_antisymm {a b : Token} (hab : a ≤ b) (hba : b ≤ a) : a = b :=
  ext_toNat (Nat.le_antisymm hab hba)

theorem lt_of_le_of_lt {a b c : Token} (hab : a ≤ b) (hbc : b < c) : a < c :=
  Nat.lt_of_le_of_lt hab hbc

theorem lt_trichotomy (a b : Token) : a < b ∨ a = b ∨ b < a := by
  rcases Nat.lt_trichotomy a.value.toNat b.value.toNat with h | h | h
  · exact .inl h
  · exact .inr (.inl (ext_toNat h))
  · exact .inr (.inr h)

instance : Min Token := ⟨fun a b => if a ≤ b then a else b⟩

instance : Std.IsLinearOrder Token where
  le_refl := le_refl
  le_trans _ _ _ := le_trans
  le_antisymm _ _ := le_antisymm
  le_total := le_total

instance : Std.LawfulOrderMin Token where
  min_eq_or a b := by
    show (if a ≤ b then a else b) = a ∨ (if a ≤ b then a else b) = b
    split <;> simp
  le_min_iff a b c := by
    show a ≤ (if b ≤ c then b else c) ↔ a ≤ b ∧ a ≤ c
    split
    · next h => exact ⟨fun hab => ⟨hab, le_trans hab h⟩, And.left⟩
    · next h =>
      have hcb := (le_total b c).resolve_left h
      exact ⟨fun hac => ⟨le_trans hac hcb, hac⟩, And.right⟩

theorem toNat_value_ofParts (table : UInt8) (row : Nat) :
    (ofParts table row).value.toNat = table.toNat * 0x1000000 + row % 0x1000000 := by
  have := table.toNat_lt
  simp only [ofParts, UInt32.toNat_ofNat']
  omega

theorem toNat_table (t : Token) : t.table.toNat = t.value.toNat / 0x1000000 := by
  have := t.toNat_value_lt
  simp only [table, UInt8.toNat_ofNat']
  omega

@[simp] theorem table_ofParts (table : UInt8) (row : Nat) : (ofParts table row).table = table := by
  apply UInt8.toNat_inj.mp
  rw [toNat_table, toNat_value_ofParts]
  omega

@[simp] theorem row_ofParts (table : UInt8) (row : Nat) :
    (ofParts table row).row = row % 0x1000000 := by
  rw [Token.row, toNat_value_ofParts]
  omega

@[simp] theorem ofParts_table_row (t : Token) : ofParts t.table t.row = t := by
  apply ext_toNat
  rw [toNat_value_ofParts, toNat_table, row]
  omega

/-- The table is the high byte. -/
theorem table_eq_shiftRight (t : Token) : t.table = (t.value >>> 24).toUInt8 := by
  apply UInt8.toNat_inj.mp
  have := t.toNat_value_lt
  rw [toNat_table, UInt32.toNat_toUInt8, UInt32.toNat_shiftRight, Nat.shiftRight_eq_div_pow]
  simp only [UInt32.reduceToNat, Nat.reduceMod, Nat.reducePow]
  omega

/-- The row is the low 24 bits. -/
theorem row_eq_and (t : Token) : t.row = (t.value &&& 0x00FFFFFF).toNat := by
  rw [UInt32.toNat_and]
  exact (Nat.and_two_pow_sub_one_eq_mod t.value.toNat 24).symm

/-- A table and a row are put together as the high byte and the low 24 bits. -/
theorem value_ofParts (table : UInt8) (row : UInt32) :
    (ofParts table row.toNat).value = table.toUInt32 <<< 24 ||| (row &&& 0x00FFFFFF) := by
  apply UInt32.toNat_inj.mp
  have htable : (table.toUInt32 <<< 24).toNat = table.toNat <<< 24 := by
    have hfits : table.toNat <<< 24 < 2 ^ 32 := by
      have := table.toNat_lt
      rw [Nat.shiftLeft_eq]
      omega
    rw [UInt32.toNat_shiftLeft, UInt8.toNat_toUInt32]
    exact Nat.mod_eq_of_lt hfits
  have hrow : (row &&& 0x00FFFFFF).toNat = row.toNat % 2 ^ 24 := by
    rw [UInt32.toNat_and]
    exact Nat.and_two_pow_sub_one_eq_mod row.toNat 24
  -- The byte and the row do not overlap, so that joining their bits is adding them.
  rw [toNat_value_ofParts, UInt32.toNat_or, htable, hrow,
    ← Nat.shiftLeft_add_eq_or_of_lt (Nat.mod_lt row.toNat (by decide)), Nat.shiftLeft_eq]

theorem row_lt (t : Token) : t.row < 0x1000000 := Nat.mod_lt _ (by decide)

/-- Tokens of one table come in the order of their rows. -/
theorem lt_iff_row_lt {a b : Token} (h : a.table = b.table) : a < b ↔ a.row < b.row := by
  have htable := congrArg UInt8.toNat h
  rw [toNat_table, toNat_table] at htable
  rw [lt_iff, row, row]
  omega

theorem isDefinition_iff {t : Token} :
    t.isDefinition = true ↔ t.table = Table.typeDef ∧ t.row ≠ 0 := by
  simp [isDefinition]

@[simp] theorem isNull_iff {t : Token} : t.isNull = true ↔ t = null := by
  cases t
  simp [isNull, null]

end Token

end ModuleAudit
