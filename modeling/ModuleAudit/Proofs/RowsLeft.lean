import ModuleAudit.Proofs.Permanence

/-!
# Rows that are left

A member without a token gets the next free row of its table. As long as there is one, that row lies
above all rows that members of registered types have. Behind the last row of a table, numbering goes on
with row zero, and nothing but a token in use keeps a type with such a member out: so a module can come
to hold one type for each table with a member whose token names no row.

## Main definitions

* `Draft.taken`: the tokens of all registered methods, or of all registered fields.
* `Rows.Above`: a token names a row of its table that lies above all rows that are taken.
* `Rows.Exhausts`: a token is missing where the table has no row left.

## Main statements

* `Rows.forall₂_number_iff`: what a numbered list holds, place by place.
* `Rows.assigned_iff`: all missing tokens get rows above those taken exactly if a row is left for each.
* `Draft.assigned_call_iff`: the accepted types whose members get such rows, and what the others get.
-/

namespace ModuleAudit

/-! ### Place by place -/

theorem forall₂_concat_iff {α β : Type} {R : α → β → Prop} {l : List α} {k : List β} {a : α} {b : β} :
    List.Forall₂ R (l ++ [a]) (k ++ [b]) ↔ List.Forall₂ R l k ∧ R a b := by
  rw [← List.forall₂_reverse_iff, List.reverse_append, List.reverse_append, List.reverse_singleton,
    List.reverse_singleton, List.singleton_append, List.singleton_append, List.forall₂_cons,
    List.forall₂_reverse_iff, and_comm]

namespace Rows

variable {table : UInt8} {row : Nat} {l taken : List Token} {x : Token}

/-- At each place, a numbered list has the token that was there, or the row that was free there. -/
theorem forall₂_number_iff {R : Token → Token → Prop} :
    List.Forall₂ R l (number table row l).1 ↔ ∀ before x after, l = before ++ x :: after →
      R x (fill table (number table row before).2 x) := by
  induction l using List.reverseRecOn with
  | nil => exact iff_of_true .nil fun before x after hsplit => absurd hsplit (by simp)
  | append_singleton l y ih =>
    rw [number_concat_fst, forall₂_concat_iff, ih, forall_split_concat_iff
      (P := fun before x => R x (fill table (number table row before).2 x))]

/-- A token names a row of a table, and that row lies above those of all tokens that are taken. -/
structure Above (table : UInt8) (taken : List Token) (x : Token) : Prop where
  table : x.table = table
  one_le : 1 ≤ x.row
  le : x.row ≤ 0xFFFFFF
  lt : ∀ y ∈ taken, y.row < x.row

/-- A token is missing where the table has no row left: its last row was used up before, or it is that
of a token before the missing one. -/
def Exhausts (table : UInt8) (row : Nat) (l : List Token) : Prop :=
  ∃ before after, l = before ++ .null :: after ∧
    (row = 0x1000000 ∨ ∃ x ∈ (number table row before).1, x.row = 0xFFFFFF)

theorem next_eq_full_iff (hle : row ≤ 0x1000000) :
    next row x = 0x1000000 ↔ row = 0x1000000 ∨ x.row = 0xFFFFFF := by
  have := x.row_lt
  unfold next
  omega

theorem number_snd_eq_full_iff (hle : row ≤ 0x1000000) : (number table row l).2 = 0x1000000 ↔
    row = 0x1000000 ∨ ∃ x ∈ (number table row l).1, x.row = 0xFFFFFF := by
  induction l generalizing row with
  | nil => simp [number]
  | cons y rest ih =>
    show (number table (next row (fill table row y)) rest).2 = 0x1000000 ↔
      row = 0x1000000 ∨ ∃ x ∈ fill table row y :: _, x.row = 0xFFFFFF
    rw [ih (next_le hle _), next_eq_full_iff hle, or_assoc]
    simp only [List.mem_cons, exists_eq_or_imp]

theorem above_ofParts (hpos : 1 ≤ row) (htaken : ∀ y ∈ taken, y.row < row) {n : Nat} (hge : row ≤ n)
    (hlt : n < 0x1000000) : Above table taken (.ofParts table n) where
  table := Token.table_ofParts table n
  one_le := by
    rw [Token.row_ofParts]
    omega
  le := by
    rw [Token.row_ofParts]
    omega
  lt y hy := by
    have := htaken y hy
    rw [Token.row_ofParts]
    omega

theorem not_above_zero : ¬Above table taken (.ofParts table 0) := by
  intro h
  have hpos := h.one_le
  rw [Token.row_ofParts] at hpos
  omega

/-- A missing token gets a row above all that are taken, or row zero where no row is left. -/
theorem above_or_zero (hpos : 1 ≤ row) (hle : row ≤ 0x1000000) (htaken : ∀ y ∈ taken, y.row < row) :
    List.Forall₂ (fun x y => x = .null → Above table taken y ∨ y = .ofParts table 0) l
      (number table row l).1 := by
  refine forall₂_number_iff.mpr ?_
  rintro before x after - rfl
  rw [fill_null]
  by_cases hfull : (number table row before).2 = 0x1000000
  · exact .inr (ofParts_of_full hfull)
  · have hlt := Nat.lt_of_le_of_ne (number_le table hle before) hfull
    exact .inl (above_ofParts hpos htaken (le_number table row before) hlt)

/-- All missing tokens get rows above those taken exactly if a row is left for each of them. -/
theorem assigned_iff (hpos : 1 ≤ row) (hle : row ≤ 0x1000000) (htaken : ∀ y ∈ taken, y.row < row) :
    List.Forall₂ (fun x y => x = .null → Above table taken y) l (number table row l).1 ↔
      ¬Exhausts table row l := by
  rw [forall₂_number_iff]
  constructor
  · rintro h ⟨before, after, hsplit, hfull⟩
    have habove := h before .null after hsplit rfl
    rw [fill_null, ofParts_of_full ((number_snd_eq_full_iff hle).mpr hfull)] at habove
    exact not_above_zero habove
  · rintro h before x after hsplit rfl
    have hlt := Nat.lt_of_le_of_ne (number_le table hle before)
      fun hfull => h ⟨before, after, hsplit, (number_snd_eq_full_iff hle).mp hfull⟩
    rw [fill_null]
    exact above_ofParts hpos htaken (le_number table row before) hlt

theorem Exhausts.zero_mem_number (h : Exhausts table row l) (hle : row ≤ 0x1000000) :
    .ofParts table 0 ∈ (number table row l).1 := by
  obtain ⟨before, after, hsplit, hfull⟩ := h
  have hzero : Token.ofParts table (number table row before).2 = .ofParts table 0 :=
    ofParts_of_full ((number_snd_eq_full_iff hle).mpr hfull)
  exact mem_number_iff.mpr (.inr ⟨before, after, hsplit, hzero.symm⟩)

end Rows

/-! ### Methods and fields -/

namespace Draft

variable {d d' : Draft} {t u : TypeDef} {c : Call} {a : Answer}

/-- The tokens of all registered methods, or of all registered fields. -/
def taken (d : Draft) (kind : MemberKind) : List Token := d.registry.types.flatMap (·.tokensOf kind)

theorem Sound.row_lt_nextOf (h : d.Sound) (kind : MemberKind) :
    ∀ x ∈ d.taken kind, x.row < d.nextOf kind := by
  intro x hx
  obtain ⟨u, hu, hx⟩ := List.mem_flatMap.mp hx
  cases kind with
  | method =>
    obtain ⟨m, hm, rfl⟩ := List.mem_map.mp hx
    exact (h.members u hu).method m hm
  | field =>
    obtain ⟨f, hf, rfl⟩ := List.mem_map.mp hx
    exact (h.members u hu).field f hf

/-- The type that an accepted call registers is the one that came, with tokens for the members that had
none. They are rows of the tables, above all rows of registered methods or fields, exactly if a row is
left for each of them. Where none is left the member gets row zero of its table, which no registered
member has. -/
theorem assigned_call_iff (hd : d.Reachable) (hnum : c.numbered? = some t)
    (haccept : (d.call c).1 = .ok a) :
    ∃ u, a = c.answer u ∧ (d.call c).2.registry.types.Perm (u :: d.registry.types) ∧
      t.Completes u ∧ ∀ kind : MemberKind,
        (List.Forall₂ (fun x y => x = .null → Rows.Above kind.table (d.taken kind) y)
            (t.tokensOf kind) (u.tokensOf kind) ↔
          ¬Rows.Exhausts kind.table (d.nextOf kind) (t.tokensOf kind)) ∧
        List.Forall₂ (fun x y => x = .null →
            Rows.Above kind.table (d.taken kind) y ∨ y = .ofParts kind.table 0)
          (t.tokensOf kind) (u.tokensOf kind) ∧
        (Rows.Exhausts kind.table (d.nextOf kind) (t.tokensOf kind) →
          .ofParts kind.table 0 ∈ u.tokensOf kind ∧
            ∀ v ∈ d.registry.types, .ofParts kind.table 0 ∉ v.memberTokens) := by
  obtain ⟨hanswer, -, htypes, hfresh⟩ := registered_of_call hnum haccept
  have hsound := hd.sound
  refine ⟨(d.number t).1, hanswer, htypes ▸ Registry.perm_insertSorted _ _, t.completes_number d, fun kind => ?_⟩
  have hpos := hsound.rows.one_le_nextOf kind
  have hle := hsound.rows.nextOf_le kind
  have htaken := hsound.row_lt_nextOf kind
  have hzero : Rows.Exhausts kind.table (d.nextOf kind) (t.tokensOf kind) →
      .ofParts kind.table 0 ∈ (d.number t).1.tokensOf kind := by
    intro h
    rw [tokensOf_number]
    exact h.zero_mem_number hle
  refine ⟨?_, ?_, fun h => ⟨hzero h, fun v hv hmem => ?_⟩⟩
  · rw [tokensOf_number]
    exact Rows.assigned_iff hpos hle htaken
  · rw [tokensOf_number]
    exact Rows.above_or_zero hpos hle htaken
  · have hused := (hsound.inUse _).mpr ⟨v, hv, hmem⟩
    exact hfresh _ (TypeDef.mem_memberTokens_iff.mpr ⟨kind, hzero h⟩) hused

/-- A draft with one method, in the last row of its table. -/
def brim : Draft := (empty "Acme.dll" .v4_0).run
  [.define (probe .null [{ Method.ofStatic "last" 0 with token := .methodDef 0xFFFFFF }] [])]

/-- A type with a method and a field that lack tokens. -/
def another : TypeDef := probe .null [.ofStatic "m" 0] [.ofStatic "f"]

theorem exhausts_another {d : Draft} (h : d.nextMethod = 0x1000000) :
    Rows.Exhausts Table.methodDef (d.nextOf .method) (another.tokensOf .method) :=
  ⟨[], [], rfl, .inl h⟩

/-- The method gets row zero and the field the first row of its table. In the module that comes of it, no
further type is accepted whose methods lack tokens. -/
theorem assigned_call_iff_brim : brim.Reachable ∧
    (brim.call (.define another)).1 = .ok (.defined (.toDefinition (.typeDef 2) another.name)) ∧
    (∃ u, another.Completes u ∧ .methodDef 0 ∈ u.tokensOf .method ∧
      List.Forall₂ (fun x y => x = .null → Rows.Above Table.field (brim.taken .field) y)
        (another.tokensOf .field) (u.tokensOf .field)) ∧
    ∀ a, ((brim.call (.define another)).2.call (.define another)).1 ≠ .ok a := by
  have hreach : brim.Reachable := ⟨_, _, _, rfl⟩
  have haccept : (brim.call (.define another)).1 =
      .ok (.defined (.toDefinition (.typeDef 2) another.name)) := rfl
  refine ⟨hreach, haccept, ?_, fun a ha => ?_⟩
  · obtain ⟨u, -, -, hcompletes, hkind⟩ := assigned_call_iff hreach rfl haccept
    refine ⟨u, hcompletes, ((hkind .method).2.2 (exhausts_another rfl)).1, (hkind .field).1.mpr ?_⟩
    rintro ⟨before, after, hsplit, hfull⟩
    obtain rfl : before = [] := by
      have hlength := congrArg List.length hsplit
      simp only [another, probe, TypeDef.tokensOf, List.length_map, List.length_append,
        List.length_cons, List.length_nil] at hlength
      exact List.eq_nil_of_length_eq_zero (by omega)
    rcases hfull with hfull | ⟨x, hx, -⟩
    · exact absurd hfull (by decide)
    · cases hx
  · have hreach' : (brim.call (.define another)).2.Reachable :=
      ⟨_, _, [_, .define another], rfl⟩
    obtain ⟨u, -, -, -, hkind⟩ := assigned_call_iff hreach' rfl ha
    obtain ⟨-, hunused⟩ := (hkind .method).2.2 (exhausts_another rfl)
    -- row zero is in use already
    exact hunused ((brim.call (.define another)).2.registry.types[1]) (List.getElem_mem _) (by decide)

/-- The row of a method that a draft numbers need not be a row of its table. -/
theorem not_above_brim_another : brim.Reachable ∧
    ∃ a, (brim.call (.define another)).1 = .ok a ∧ ∃ u ∈ (brim.call (.define another)).2.registry.types,
      u ∉ brim.registry.types ∧ another.tokensOf .method = [.null] ∧
        u.tokensOf .method = [.methodDef 0] ∧
        ¬(1 ≤ (Token.methodDef 0).row ∧ (Token.methodDef 0).row ≤ 0xFFFFFF) :=
  ⟨⟨_, _, _, rfl⟩, _, rfl, (brim.call (.define another)).2.registry.types[1], List.getElem_mem _,
    by decide, rfl, rfl, by decide⟩

end Draft

end ModuleAudit
