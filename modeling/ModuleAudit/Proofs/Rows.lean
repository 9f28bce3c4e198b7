import Mathlib.Data.List.Induction
import ModuleAudit.Draft

/-!
# Numbering a list of tokens

The null tokens of a list get the next free rows of a table, in order. Each row lies above all rows
before it, as long as the table has a row left. So a token repeats in one of three ways only: it came
twice, it came behind a null token that had got its row, or the table was full.

## Main definitions

* `Rows.Collides`: the two ways in which a null token gets a token that another place holds.
* `Rows.Repeats`: the ways in which numbering a list gives one token twice.
* `Rows.TakesNone`: numbering a list leaves the next free row where it is.

## Main statements

* `Rows.mem_number_iff`: where the tokens of a numbered list come from.
* `Rows.row_lt_of_mem_number`: the next free row lies above all rows of a numbered list.
* `Rows.nodup_number_iff`: a numbered list repeats no token exactly if none of these ways is taken.
* `Rows.number_snd_eq_iff`: which lists take no row.
-/

namespace ModuleAudit

/-- What holds at every place of a list with one more element holds at every place of the list, and of
the element behind it. -/
theorem forall_split_concat_iff {α : Type} {P : List α → α → Prop} {l : List α} {a : α} :
    (∀ before x after, l ++ [a] = before ++ x :: after → P before x) ↔
      (∀ before x after, l = before ++ x :: after → P before x) ∧ P l a := by
  constructor
  · intro h
    refine ⟨fun before x after hsplit => ?_, h l a [] rfl⟩
    exact h before x (after ++ [a]) (by rw [hsplit, List.append_assoc, List.cons_append])
  · rintro ⟨h, ha⟩ before x after hsplit
    rcases List.eq_nil_or_concat after with rfl | ⟨after, b, rfl⟩
    · obtain ⟨rfl, hx⟩ := List.append_inj' hsplit rfl
      cases hx
      exact ha
    · rw [List.concat_eq_append, ← List.cons_append, ← List.append_assoc] at hsplit
      obtain ⟨hl, -⟩ := List.append_inj' hsplit rfl
      exact h before x after hl

namespace Rows

variable {table : UInt8} {row : Nat} {l : List Token} {x : Token}

/-! ### One row -/

theorem fill_null (table : UInt8) (row : Nat) : fill table row .null = .ofParts table row :=
  if_pos (Token.isNull_iff.mpr rfl)

theorem fill_of_ne_null (h : x ≠ .null) : fill table row x = x := if_neg (mt Token.isNull_iff.mp h)

theorem ofParts_ne_null (htable : table ≠ 0) (row : Nat) : Token.ofParts table row ≠ .null := by
  intro h
  have ht := congrArg Token.table h
  rw [Token.table_ofParts] at ht
  exact htable ht

/-- Rows from the first to the one behind the last have different tokens. -/
theorem ofParts_inj {m n : Nat} (hm : 1 ≤ m) (hm' : m ≤ 0x1000000) (hn : 1 ≤ n)
    (hn' : n ≤ 0x1000000) (h : Token.ofParts table m = .ofParts table n) : m = n := by
  have hrow := congrArg Token.row h
  rw [Token.row_ofParts, Token.row_ofParts] at hrow
  omega

theorem ofParts_of_full {row : Nat} (h : row = 0x1000000) :
    Token.ofParts table row = .ofParts table 0 := by
  rw [h]
  rfl

theorem row_lt_next (row : Nat) (x : Token) : x.row < next row x :=
  Nat.lt_of_lt_of_le (Nat.lt_succ_self _) (Nat.le_max_right _ _)

theorem next_le (h : row ≤ 0x1000000) (x : Token) : next row x ≤ 0x1000000 :=
  Nat.max_le.mpr ⟨h, Nat.succ_le_of_lt x.row_lt⟩

/-- In 32 bits, the next free row is computed as if there were no bound. -/
theorem toNat_next (h : row ≤ 0x1000000) (x : Token) :
    (max (UInt32.ofNat row) (UInt32.ofNat x.row + 1)).toNat = next row x := by
  have hx := x.row_lt
  have hrow : (UInt32.ofNat row).toNat = row := by
    rw [UInt32.toNat_ofNat']
    omega
  have hsucc : (UInt32.ofNat x.row + 1).toNat = x.row + 1 := by
    rw [UInt32.toNat_add, UInt32.toNat_ofNat', UInt32.toNat_one]
    omega
  show (if UInt32.ofNat row ≤ UInt32.ofNat x.row + 1 then UInt32.ofNat x.row + 1
    else UInt32.ofNat row).toNat = max row (x.row + 1)
  split
  · next hle =>
    rw [UInt32.le_iff_toNat_le, hrow, hsucc] at hle
    omega
  · next hnle =>
    rw [UInt32.le_iff_toNat_le, hrow, hsucc] at hnle
    omega

/-! ### The rows of a list -/

theorem number_append (table : UInt8) (row : Nat) (l k : List Token) :
    number table row (l ++ k) =
      ((number table row l).1 ++ (number table (number table row l).2 k).1,
        (number table (number table row l).2 k).2) := by
  induction l generalizing row with
  | nil => rfl
  | cons y rest ih => simp only [List.cons_append, number, ih]

theorem number_singleton_fst (table : UInt8) (row : Nat) (x : Token) :
    (number table row [x]).1 = [fill table row x] := rfl

theorem number_concat_fst (table : UInt8) (row : Nat) (l : List Token) (x : Token) :
    (number table row (l ++ [x])).1 =
      (number table row l).1 ++ [fill table (number table row l).2 x] := by
  rw [number_append, number_singleton_fst]

theorem number_le (table : UInt8) (h : row ≤ 0x1000000) (l : List Token) :
    (number table row l).2 ≤ 0x1000000 := by
  induction l generalizing row with
  | nil => exact h
  | cons y rest ih => exact ih (next_le h _)

theorem row_lt_of_mem_number (h : x ∈ (number table row l).1) :
    x.row < (number table row l).2 := by
  induction l generalizing row with
  | nil => cases h
  | cons y rest ih =>
    rcases List.mem_cons.mp h with rfl | h
    · exact Nat.lt_of_lt_of_le (row_lt_next row _) (le_number table _ rest)
    · exact ih h

/-- A token of a numbered list came with it, or it is the row that was free at a null token. -/
theorem mem_number_iff : x ∈ (number table row l).1 ↔ (x ∈ l ∧ x ≠ .null) ∨
    ∃ before after, l = before ++ .null :: after ∧
      x = .ofParts table (number table row before).2 := by
  induction l using List.reverseRecOn with
  | nil =>
    constructor
    · intro h
      cases h
    · rintro (⟨h, -⟩ | ⟨before, after, hsplit, -⟩)
      · cases h
      · exact absurd hsplit (by simp)
  | append_singleton l y ih =>
    rw [number_concat_fst, List.mem_append, ih, List.mem_singleton, List.mem_append,
      List.mem_singleton]
    constructor
    · rintro ((⟨hmem, hx⟩ | ⟨before, after, rfl, hx⟩) | hx)
      · exact .inl ⟨.inl hmem, hx⟩
      · exact .inr ⟨before, after ++ [y], by simp, hx⟩
      · by_cases hy : y = .null
        · rw [hy, fill_null] at hx
          exact .inr ⟨l, [], by rw [hy], hx⟩
        · rw [fill_of_ne_null hy] at hx
          exact .inl ⟨.inr hx, hx ▸ hy⟩
    · rintro (⟨hmem | rfl, hx⟩ | ⟨before, after, hsplit, hx⟩)
      · exact .inl (.inl ⟨hmem, hx⟩)
      · exact .inr (fill_of_ne_null hx).symm
      · rcases List.eq_nil_or_concat after with rfl | ⟨after, z, rfl⟩
        · obtain ⟨rfl, hy⟩ := List.append_inj' hsplit rfl
          cases hy
          exact .inr (hx.trans (fill_null _ _).symm)
        · rw [List.concat_eq_append, ← List.cons_append, ← List.append_assoc] at hsplit
          obtain ⟨hl, -⟩ := List.append_inj' hsplit rfl
          exact .inl (.inr ⟨before, after, hl, hx⟩)

theorem null_not_mem_number (htable : table ≠ 0) (row : Nat) (l : List Token) :
    .null ∉ (number table row l).1 := by
  intro h
  rcases mem_number_iff.mp h with ⟨-, hnull⟩ | ⟨before, -, -, hnull⟩
  · exact hnull rfl
  · exact ofParts_ne_null htable _ hnull.symm

/-! ### Repeated tokens -/

/-- A null token of a list gets a token that another place of the numbered list holds. -/
inductive Collides (table : UInt8) (row : Nat) (l : List Token) : Prop
  /-- It gets the row of a token that comes behind it. -/
  | behind (before mid after : List Token)
      (split : l = before ++
        .null :: (mid ++ .ofParts table (number table row before).2 :: after))
  /-- The table is full, and row zero has been handed out before. -/
  | exhausted (before after : List Token) (split : l = before ++ .null :: after)
      (full : (number table row before).2 = 0x1000000)
      (earlier : .ofParts table 0 ∈ (number table row before).1)

/-- A numbered list holds one token twice. -/
inductive Repeats (table : UInt8) (row : Nat) (l : List Token) : Prop
  | given (before : List Token) (x : Token) (after : List Token)
      (split : l = before ++ x :: after) (notNull : x ≠ .null) (earlier : x ∈ before)
  | collides (collision : Collides table row l)

theorem nodup_number_iff_fill : (number table row l).1.Nodup ↔
    ∀ before x after, l = before ++ x :: after →
      fill table (number table row before).2 x ∉ (number table row before).1 := by
  induction l using List.reverseRecOn with
  | nil =>
    refine iff_of_true List.nodup_nil fun before x after hsplit => ?_
    exact absurd hsplit (by simp)
  | append_singleton l y ih =>
    rw [forall_split_concat_iff (P := fun before x =>
        fill table (number table row before).2 x ∉ (number table row before).1),
      ← ih, number_concat_fst, (List.perm_append_singleton _ _).nodup_iff, List.nodup_cons, and_comm]

theorem nodup_number_iff (htable : table ≠ 0) (hrow : row ≤ 0x1000000) :
    (number table row l).1.Nodup ↔ ¬Repeats table row l := by
  rw [nodup_number_iff_fill]
  constructor
  · rintro h (⟨before, x, after, hsplit, hx, hmem⟩ | ⟨⟨before, mid, after, hsplit⟩ |
      ⟨before, after, hsplit, hfull, hmem⟩⟩)
    · apply h before x after hsplit
      rw [fill_of_ne_null hx]
      exact mem_number_iff.mpr (.inl ⟨hmem, hx⟩)
    · rw [← List.cons_append, ← List.append_assoc] at hsplit
      apply h _ _ _ hsplit
      rw [fill_of_ne_null (ofParts_ne_null htable _)]
      exact mem_number_iff.mpr (.inr ⟨before, mid, rfl, rfl⟩)
    · apply h before .null after hsplit
      rw [fill_null, ofParts_of_full hfull]
      exact hmem
  · intro h before x after hsplit hmem
    -- a token that came with the list meets an earlier one, or a row that was handed out before it
    by_cases hx : x = .null
    · subst hx
      rw [fill_null] at hmem
      have hlt := row_lt_of_mem_number hmem
      have hle := number_le table hrow before
      -- below the last row the new token lies above all tokens before it
      have hfull : (number table row before).2 = 0x1000000 := by
        rw [Token.row_ofParts] at hlt
        by_contra hne
        rw [Nat.mod_eq_of_lt (Nat.lt_of_le_of_ne hle hne)] at hlt
        exact Nat.lt_irrefl _ hlt
      rw [ofParts_of_full hfull] at hmem
      exact h (.collides (.exhausted before after hsplit hfull hmem))
    · rw [fill_of_ne_null hx] at hmem
      rcases mem_number_iff.mp hmem with ⟨hmem, -⟩ | ⟨first, mid, rfl, rfl⟩
      · exact h (.given before x after hsplit hx hmem)
      · refine h (.collides (.behind first mid after ?_))
        rw [hsplit, List.append_assoc, List.cons_append]

/-- Where a list came with different tokens, only numbering brings one in twice. -/
theorem repeats_iff_collides (table : UInt8) (row : Nat)
    (h : l.Pairwise fun y x => x ≠ .null → x ≠ y) :
    Repeats table row l ↔ Collides table row l := by
  constructor
  · rintro (⟨before, x, after, rfl, hx, hmem⟩ | hcollides)
    · obtain ⟨-, -, hdiffer⟩ := List.pairwise_append.mp h
      exact absurd rfl (hdiffer x hmem x List.mem_cons_self hx)
    · exact hcollides
  · exact .collides

theorem table_of_mem_number (h : ∀ y ∈ l, y ≠ .null → y.table = table)
    (hx : x ∈ (number table row l).1) : x.table = table := by
  rcases mem_number_iff.mp hx with ⟨hmem, hnull⟩ | ⟨before, after, -, rfl⟩
  · exact h x hmem hnull
  · exact Token.table_ofParts ..

/-! ### Lists that take no row -/

/-- No token of a list moves the next free row: null tokens find no row left, and the rows of the
others are used up already. -/
def TakesNone (row : Nat) (l : List Token) : Prop :=
  ∀ x ∈ l, (x = .null → 0x1000000 ≤ row) ∧ (x ≠ .null → x.row < row)

theorem next_fill_eq_iff (table : UInt8) (hrow : row ≤ 0x1000000) :
    next row (fill table row x) = row ↔
      (x = .null → 0x1000000 ≤ row) ∧ (x ≠ .null → x.row < row) := by
  unfold next
  by_cases hx : x = .null
  · rw [hx, fill_null, Token.row_ofParts]
    simp only [ne_eq, not_true_eq_false, false_imp_iff, and_true, true_imp_iff]
    omega
  · rw [fill_of_ne_null hx]
    simp only [hx, false_imp_iff, true_and, ne_eq, not_false_eq_true, true_imp_iff]
    omega

theorem number_snd_eq_iff (table : UInt8) (hrow : row ≤ 0x1000000) :
    (number table row l).2 = row ↔ TakesNone row l := by
  unfold TakesNone
  induction l with
  | nil => simp [number]
  | cons y rest ih =>
    rw [List.forall_mem_cons, ← next_fill_eq_iff table hrow]
    show (number table (next row (fill table row y)) rest).2 = row ↔ _
    constructor
    · intro h
      -- the row is passed on from token to token and never goes back
      have hle := le_number table (next row (fill table row y)) rest
      have hge : row ≤ next row (fill table row y) := Nat.le_max_left _ _
      have heq : next row (fill table row y) = row := by omega
      rw [heq] at h
      exact ⟨heq, ih.mp h⟩
    · rintro ⟨heq, hrest⟩
      rw [heq]
      exact ih.mpr hrest

end Rows

end ModuleAudit
