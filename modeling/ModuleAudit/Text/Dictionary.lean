/-!
# Dictionary order

Lists of numbers in the order in which a dictionary lists words: the first place where two lists
differ decides, and a list comes before all that go on from it. Texts are compared by the numbers of
their encoded bytes.

## Main definitions

* `Dictionary.le`: whether a list comes before another one or equals it.
* `Dictionary.bytes`: the encoded bytes of a text as numbers.

## Main statements

* `Dictionary.le_total`, `Dictionary.le_trans`, `Dictionary.le_antisymm`: the order is linear.
* `Dictionary.le_iff_lex`: the order is the lexicographic one.
* `Dictionary.bytes_inj`: a text is known from its bytes.
* `Dictionary.lex_append_iff`: lists that go on from two lists of one length.
* `Dictionary.bytes_ofList`: the bytes of an ASCII text are its characters.
-/

namespace ModuleAudit.Dictionary

/-- Whether a list of numbers comes before another one or equals it. -/
def le : List Nat → List Nat → Bool
  | [], _ => true
  | _ :: _, [] => false
  | a :: as, b :: bs => decide (a < b) || (a == b && le as bs)

/-- The bytes of the UTF-8 form of a text, as numbers. -/
def bytes (s : String) : List Nat := s.toByteArray.data.toList.map (·.toNat)

theorem le_cons_iff {a b : Nat} {as bs : List Nat} :
    le (a :: as) (b :: bs) = true ↔ a < b ∨ a = b ∧ le as bs = true := by
  simp [le]

theorem le_refl (as : List Nat) : le as as = true := by
  induction as with
  | nil => rfl
  | cons a as ih => exact le_cons_iff.mpr (.inr ⟨rfl, ih⟩)

theorem le_total (as bs : List Nat) : le as bs = true ∨ le bs as = true := by
  induction as generalizing bs with
  | nil => exact .inl rfl
  | cons a as ih =>
    cases bs with
    | nil => exact .inr rfl
    | cons b bs =>
      rcases Nat.lt_trichotomy a b with h | h | h
      · exact .inl (le_cons_iff.mpr (.inl h))
      · rcases ih bs with ih | ih
        · exact .inl (le_cons_iff.mpr (.inr ⟨h, ih⟩))
        · exact .inr (le_cons_iff.mpr (.inr ⟨h.symm, ih⟩))
      · exact .inr (le_cons_iff.mpr (.inl h))

theorem le_trans {as bs cs : List Nat} (hab : le as bs = true) (hbc : le bs cs = true) :
    le as cs = true := by
  induction as generalizing bs cs with
  | nil => rfl
  | cons a as ih =>
    cases bs with
    | nil => cases hab
    | cons b bs =>
      cases cs with
      | nil => cases hbc
      | cons c cs =>
        rcases le_cons_iff.mp hab with h | ⟨h, hrest⟩ <;>
          rcases le_cons_iff.mp hbc with h' | ⟨h', hrest'⟩
        · exact le_cons_iff.mpr (.inl (by omega))
        · exact le_cons_iff.mpr (.inl (by omega))
        · exact le_cons_iff.mpr (.inl (by omega))
        · exact le_cons_iff.mpr (.inr ⟨h.trans h', ih hrest hrest'⟩)

theorem le_antisymm {as bs : List Nat} (hab : le as bs = true) (hba : le bs as = true) :
    as = bs := by
  induction as generalizing bs with
  | nil =>
    cases bs with
    | nil => rfl
    | cons b bs => cases hba
  | cons a as ih =>
    cases bs with
    | nil => cases hab
    | cons b bs =>
      rcases le_cons_iff.mp hab with h | ⟨rfl, hrest⟩ <;>
        rcases le_cons_iff.mp hba with h' | ⟨h', hrest'⟩
      · omega
      · omega
      · omega
      · exact congrArg (a :: ·) (ih hrest hrest')

theorem le_iff_lex {as bs : List Nat} :
    le as bs = true ↔ List.Lex (· < ·) as bs ∨ as = bs := by
  induction as generalizing bs with
  | nil =>
    cases bs with
    | nil => exact iff_of_true rfl (.inr rfl)
    | cons b bs => exact iff_of_true rfl (.inl .nil)
  | cons a as ih =>
    cases bs with
    | nil => exact iff_of_false nofun nofun
    | cons b bs =>
      rw [le_cons_iff, ih, List.cons_lex_cons_iff, List.cons_eq_cons]
      grind

theorem bytes_inj {s t : String} : bytes s = bytes t ↔ s = t := by
  constructor
  · intro h
    have hbytes : s.toByteArray.data.toList = t.toByteArray.data.toList :=
      (List.map_inj_right fun _ _ => UInt8.toNat_inj.mp).mp h
    exact String.toByteArray_inj.mp (ByteArray.ext (Array.toList_inj.mp hbytes))
  · rintro rfl
    rfl

/-- What stands behind two lists of one length decides only where the lists are equal. -/
theorem lex_append_iff {as bs cs ds : List Nat} (h : as.length = bs.length) :
    List.Lex (· < ·) (as ++ cs) (bs ++ ds) ↔
      List.Lex (· < ·) as bs ∨ as = bs ∧ List.Lex (· < ·) cs ds := by
  induction as generalizing bs with
  | nil =>
    obtain rfl := List.length_eq_zero_iff.mp h.symm
    simp
  | cons a as ih =>
    cases bs with
    | nil => cases h
    | cons b bs =>
      rw [List.cons_append, List.cons_append, List.cons_lex_cons_iff, ih (Nat.succ.inj h),
        List.cons_lex_cons_iff, List.cons_eq_cons]
      grind

/-- An ASCII text has one byte for each character. -/
theorem bytes_ofList {cs : List Char} (h : ∀ c ∈ cs, c.toNat < 128) :
    bytes (String.ofList cs) = cs.map Char.toNat := by
  have hbyte : ∀ c ∈ cs, (String.utf8EncodeChar c).map (·.toNat) = [c.toNat] := by
    intro c hc
    have hencode : String.utf8EncodeChar c = [UInt8.ofNat c.toNat] :=
      if_pos (Nat.le_of_lt_succ (h c hc))
    rw [hencode, List.map_singleton, UInt8.toNat_ofNat_of_lt' (Nat.lt_trans (h c hc) (by decide))]
  calc bytes (String.ofList cs)
      = (cs.flatMap String.utf8EncodeChar).map (·.toNat) := by
        rw [bytes, String.toByteArray_ofList, List.utf8Encode, List.data_toByteArray]
    _ = cs.flatMap fun c => (String.utf8EncodeChar c).map (·.toNat) := List.map_flatMap
    _ = cs.flatMap fun c => [c.toNat] := congrArg List.flatten (List.map_congr_left hbyte)
    _ = cs.map Char.toNat := List.map_eq_flatMap.symm

end ModuleAudit.Dictionary
