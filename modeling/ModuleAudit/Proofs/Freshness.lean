import ModuleAudit.Proofs.RowsLeft
import ModuleAudit.Proofs.Wording

/-!
# Fresh tokens

Where types come into a draft as definitions only, each member has a token of its own table. Then the
rows that the draft hands out clash with nothing, as long as the tables have room: they lie above all
rows of their table. So a definition is refused only for a token that it came with, and one without
tokens is always accepted.

## Main definitions

* `TypeDef.Carries`: a token that a type came with, its own or that of a member.
* `Rows.ceiling`: the first row behind those used up and those of the tokens of a list.
* `Draft.Defined`: the drafts that types come into as definitions only.
* `Draft.HasRoomFor`: the tables have rows for a type and its members.

## Main statements

* `Rows.number_snd_le`: numbering moves the next free row by no more than the length of the list.
* `Rows.number_of_forall_null`: where all tokens are missing, rows are handed out one after the other.
* `Draft.Tabled.call`: as long as types come as definitions, members have tokens of their own tables.
* `Draft.define_of_hasRoomFor`: where there is room, a definition is refused for a token it came with.
-/

namespace ModuleAudit

/-! ### The token at fault -/

theorem Registry.token?_of_insert {r : Registry} {t : TypeDef} {e : MetadataError}
    (h : r.insert t = .error e) : e.token? = some t.token := by
  unfold insert at h
  split at h
  · split at h
    · cases h
      rfl
    · cases h
  · cases h
    rfl

/-- A type comes with a token: its own one, or that of a member. -/
def TypeDef.Carries (t : TypeDef) (x : Token) : Prop :=
  x ≠ .null ∧ (x = t.token ∨ x ∈ t.memberTokens)

/-- A faulty definition carries the token that it is refused for. -/
theorem TypeDef.exists_token?_of_fault? {t : TypeDef} {e : MetadataError} (h : t.fault? = some e) :
    ∃ x, t.Carries x ∧ e.token? = some x := by
  obtain ⟨m, hm, hnull, hfault⟩ := Member.firstFault?_eq_some h
  refine ⟨m.token, ⟨hnull, .inr (List.mem_map_of_mem hm)⟩, ?_⟩
  rcases hfault with rfl | rfl <;> rfl

/-! ### Tables -/

theorem MemberKind.eq_of_table_eq {kind kind' : MemberKind} (h : kind.table = kind'.table) :
    kind = kind' := by
  cases kind <;> cases kind' <;> first | rfl | exact absurd h (by decide)

theorem MemberKind.table_ne_typeDef (kind : MemberKind) : kind.table ≠ Table.typeDef := by
  cases kind <;> decide

/-- The members of a type have tokens of their own tables. -/
def TypeDef.Tabled (t : TypeDef) : Prop := ∀ kind, ∀ x ∈ t.tokensOf kind, x.table = kind.table

theorem TypeDef.Tabled.table_ne {t : TypeDef} (h : t.Tabled) {x : Token} (hx : x ∈ t.memberTokens) :
    x.table ≠ Table.typeDef := by
  obtain ⟨kind, hx⟩ := mem_memberTokens_iff.mp hx
  rw [h kind x hx]
  exact kind.table_ne_typeDef

/-! ### Rows for a list -/

namespace Rows

variable {table : UInt8} {row n : Nat} {l taken before after : List Token} {x : Token}

/-- The first row that is not below the given one, and above the rows of all tokens of a list that are
not null. -/
def ceiling (row : Nat) : List Token → Nat
  | [] => row
  | x :: rest => if x.isNull then ceiling row rest else next (ceiling row rest) x

theorem ceiling_le_iff : ceiling row l ≤ n ↔ row ≤ n ∧ ∀ x ∈ l, x ≠ .null → x.row < n := by
  induction l with
  | nil => simp [ceiling]
  | cons x rest ih =>
    rw [ceiling, List.forall_mem_cons]
    by_cases hx : x = .null
    · simp [hx, ih]
    · rw [if_neg (mt Token.isNull_iff.mp hx), next, Nat.max_le, ih, Nat.succ_le_iff]
      constructor
      · rintro ⟨⟨hrow, hrest⟩, hlt⟩
        exact ⟨hrow, fun _ => hlt, hrest⟩
      · rintro ⟨hrow, hlt, hrest⟩
        exact ⟨⟨hrow, hrest⟩, hlt hx⟩

/-- Each place of a list moves the next free row by one at most, apart from the tokens it came with. -/
theorem number_snd_le (table : UInt8) (hrow : row ≤ n) (hgiven : ∀ x ∈ l, x ≠ .null → x.row < n) :
    (number table row l).2 ≤ n + l.length := by
  induction l generalizing row n with
  | nil => exact hrow
  | cons x rest ih =>
    obtain ⟨hx, hrest⟩ := List.forall_mem_cons.mp hgiven
    show (number table (next row (fill table row x)) rest).2 ≤ n + (rest.length + 1)
    by_cases hnull : x = .null
    · have hnext : next row (fill table row x) ≤ n + 1 := by
        rw [hnull, fill_null, next, Token.row_ofParts]
        omega
      have hle := ih hnext fun y hy hy' => Nat.lt_succ_of_lt (hrest y hy hy')
      omega
    · have hnext : next row (fill table row x) ≤ n := by
        rw [fill_of_ne_null hnull]
        exact Nat.max_le.mpr ⟨hrow, hx hnull⟩
      have hle := ih hnext hrest
      omega

/-- Where a list has room, a row is left at each of its places. -/
theorem number_snd_lt (table : UInt8) (hroom : ceiling row l + l.length ≤ 0x1000000)
    (hsplit : l = before ++ x :: after) : (number table row before).2 < 0x1000000 := by
  obtain ⟨hrow, hgiven⟩ := ceiling_le_iff.mp (Nat.le_refl (ceiling row l))
  have hle := number_snd_le table hrow fun y hy =>
    hgiven y (hsplit ▸ List.mem_append_left _ hy)
  have hlength := congrArg List.length hsplit
  rw [List.length_append, List.length_cons] at hlength
  omega

/-- Where a list has room, a token came with it, or its row lies above all that are taken. -/
theorem given_or_above (hpos : 1 ≤ row) (htaken : ∀ y ∈ taken, y.row < row)
    (hroom : ceiling row l + l.length ≤ 0x1000000) (hx : x ∈ (number table row l).1) :
    (x ∈ l ∧ x ≠ .null) ∨ Above table taken x := by
  rcases mem_number_iff.mp hx with hgiven | ⟨before, after, hsplit, rfl⟩
  · exact .inl hgiven
  · exact .inr (above_ofParts hpos htaken (le_number table row before)
      (number_snd_lt table hroom hsplit))

/-- Where all tokens are missing, they get one row after the other. -/
theorem number_of_forall_null (table : UInt8) (hnull : ∀ x ∈ l, x = .null)
    (hroom : row + l.length ≤ 0x1000000) :
    (number table row l).1 = (List.range' row l.length).map (.ofParts table) := by
  induction l generalizing row with
  | nil => rfl
  | cons x rest ih =>
    obtain ⟨rfl, hrest⟩ := List.forall_mem_cons.mp hnull
    rw [List.length_cons] at hroom
    have hnext : next row (.ofParts table row) = row + 1 := by
      rw [next, Token.row_ofParts]
      omega
    show fill table row .null :: (number table (next row (fill table row .null)) rest).1 = _
    rw [fill_null, hnext, ih hrest (by omega), List.length_cons, List.range'_succ, List.map_cons]

end Rows

/-! ### Drafts of definitions -/

namespace Draft

variable {d : Draft} {t u v : TypeDef} {c : Call} {x : Token} {e : MetadataError}

/-- The members of all registered types have tokens of their own tables. -/
def Tabled (d : Draft) : Prop := ∀ u ∈ d.registry.types, u.Tabled

theorem tabled_number (h : t.fault? = none) : (d.number t).1.Tabled := by
  intro kind x hx
  rw [tokensOf_number] at hx
  exact Rows.table_of_mem_number (t.table_of_mem_tokensOf h kind) hx

theorem fault?_of_numbered (hdefine : ∀ t, c ≠ .add t) (hnum : c.numbered? = some t) :
    t.fault? = none := by
  cases c with
  | define u =>
    obtain ⟨hfault, rfl⟩ := TypeDef.checked_eq_ok_iff.mp (checked_of_numbered hnum)
    exact hfault
  | add u => exact absurd rfl (hdefine u)
  | depend assembly on => cases hnum

theorem Tabled.call (h : d.Tabled) (hdefine : ∀ t, c ≠ .add t) : (d.call c).2.Tabled := by
  have hout := outcome d c
  generalize d.call c = o at hout
  cases hout with
  | malformed => exact h
  | linked => exact h
  | refused => exact h
  | registered t d' hnum done =>
    obtain ⟨-, registry, hinsert, rfl⟩ := register_eq_ok_iff.mp done
    intro u hu
    rcases (Registry.mem_types_of_insert hinsert).mp hu with rfl | hu
    · exact tabled_number (fault?_of_numbered hdefine hnum)
    · exact h u hu

theorem Tabled.run {calls : List Call} (h : d.Tabled) (hdefine : ∀ t, .add t ∉ calls) :
    (d.run calls).Tabled := by
  induction calls generalizing d with
  | nil => exact h
  | cons c rest ih =>
    refine ih (h.call ?_) fun t ht => hdefine t (List.mem_cons_of_mem c ht)
    rintro t rfl
    exact hdefine t List.mem_cons_self

/-- Drafts that types come into as definitions only. -/
def Defined (d : Draft) : Prop :=
  ∃ name framework calls, (∀ t, .add t ∉ calls) ∧ d = (empty name framework).run calls

theorem Defined.reachable (h : d.Defined) : d.Reachable := by
  obtain ⟨name, framework, calls, -, rfl⟩ := h
  exact ⟨name, framework, calls, rfl⟩

theorem Defined.tabled (h : d.Defined) : d.Tabled := by
  obtain ⟨name, framework, calls, hdefine, rfl⟩ := h
  exact Tabled.run (fun _ hu => absurd hu List.not_mem_nil) hdefine

/-! ### Room for a type -/

/-- The tables have a row for a type, and as many rows for its members as it has, behind those that are
used up and those that it came with. -/
structure HasRoomFor (d : Draft) (t : TypeDef) : Prop where
  type : d.nextType ≤ 0xFFFFFF
  members : ∀ kind,
    Rows.ceiling (d.nextOf kind) (t.tokensOf kind) + (t.tokensOf kind).length ≤ 0x1000000

/-- Where there is room, a numbered type has a token in use only if it came with it. -/
theorem HasRoomFor.carries_of_inUse (hroom : d.HasRoomFor t) (hd : d.Defined)
    (hx : x ∈ (d.number t).1.memberTokens) (hused : x ∈ d.inUse) : t.Carries x := by
  have hsound := hd.reachable.sound
  obtain ⟨kind, hx⟩ := TypeDef.mem_memberTokens_iff.mp hx
  rw [tokensOf_number] at hx
  rcases Rows.given_or_above (hsound.rows.one_le_nextOf kind) (hsound.row_lt_nextOf kind)
    (hroom.members kind) hx with ⟨hgiven, hnull⟩ | habove
  · exact ⟨hnull, .inr (TypeDef.mem_memberTokens_iff.mpr ⟨kind, hgiven⟩)⟩
  · -- the row is new among the members of its kind, and no others live in its table
    obtain ⟨v, hv, hxv⟩ := (hsound.inUse x).mp hused
    obtain ⟨kind', hxv⟩ := TypeDef.mem_memberTokens_iff.mp hxv
    obtain rfl := MemberKind.eq_of_table_eq ((hd.tabled v hv kind' x hxv).symm.trans habove.table)
    exact absurd (habove.lt x (List.mem_flatMap.mpr ⟨v, hv, hxv⟩)) (Nat.lt_irrefl _)

/-- The next free row of types lies above the rows of all registered types. -/
theorem HasRoomFor.token_lt (hroom : d.HasRoomFor t) (hsound : d.Sound)
    (hv : v ∈ d.registry.types) : v.token < .typeDef d.nextType := by
  obtain ⟨htable, -, hlt⟩ := hsound.types v hv
  have hle := hroom.type
  have htable' : (Token.typeDef d.nextType).table = Table.typeDef := Token.table_ofParts _ _
  have hrow : (Token.typeDef d.nextType).row = d.nextType % 0x1000000 := Token.row_ofParts _ _
  rw [Token.lt_iff_row_lt (htable.trans htable'.symm), hrow]
  omega

theorem HasRoomFor.exists_insert (hroom : d.HasRoomFor t) (hsound : d.Sound)
    (hu : u.token = .typeDef d.nextType) : ∃ r, d.registry.insert u = .ok r := by
  have hle := hroom.type
  have hpos := hsound.one_le_type
  refine Registry.exists_insert_eq_ok_iff.mpr ⟨?_, Registry.get?_eq_none_iff.mpr fun v hv hvu => ?_⟩
  · rw [hu, Token.isDefinition_iff, Token.typeDef, Token.table_ofParts, Token.row_ofParts]
    exact ⟨rfl, by omega⟩
  · exact Token.ne_of_lt (hroom.token_lt hsound hv) (hvu.trans hu)

/-- Where there is room, a definition is refused for a token that it came with. -/
theorem HasRoomFor.carries_of_define (hroom : d.HasRoomFor t) (hd : d.Defined)
    (h : (d.define t).1 = .error e) : ∃ x, t.Carries x ∧ e.token? = some x := by
  rcases define_eq_error h with hfault | hregister
  · exact TypeDef.exists_token?_of_fault? hfault
  · rcases register_eq_error hregister with ⟨x, hx, hused, rfl⟩ | hinsert
    · exact ⟨x, hroom.carries_of_inUse hd hx hused, rfl⟩
    · by_cases hnull : t.token = .null
      · obtain ⟨r, hr⟩ := hroom.exists_insert hd.reachable.sound (token_number_of_null hnull)
        cases hr.symm.trans hinsert
      · refine ⟨t.token, ⟨hnull, .inl rfl⟩, ?_⟩
        rw [← token_number_of_ne_null hnull]
        exact Registry.token?_of_insert hinsert

/-! ### Types without tokens -/

/-- Where there is room, the members of a type without tokens get one row after the other. -/
theorem HasRoomFor.tokensOf_number (hroom : d.HasRoomFor t) (hnone : ∀ x, ¬t.Carries x)
    (kind : MemberKind) : (d.number t).1.tokensOf kind =
      (List.range' (d.nextOf kind) (t.tokensOf kind).length).map (.ofParts kind.table) := by
  obtain ⟨hle, -⟩ := Rows.ceiling_le_iff.mp (Nat.le_refl (Rows.ceiling (d.nextOf kind) (t.tokensOf kind)))
  have hmembers := hroom.members kind
  rw [Draft.tokensOf_number]
  refine Rows.number_of_forall_null kind.table (fun x hx => ?_) (by omega)
  by_contra hnull
  exact hnone x ⟨hnull, .inr (TypeDef.mem_memberTokens_iff.mpr ⟨kind, hx⟩)⟩

theorem disjoint_tokens (hu : u.Tabled) (hv : v.Tabled) (hut : u.token.table = Table.typeDef)
    (hvt : v.token.table = Table.typeDef) (hne : u.token ≠ v.token)
    (hmembers : u.memberTokens.Disjoint v.memberTokens) :
    (u.token :: u.memberTokens).Disjoint (v.token :: v.memberTokens) := by
  intro x hxu hxv
  rcases List.mem_cons.mp hxu with rfl | hxu <;> rcases List.mem_cons.mp hxv with hxv | hxv
  · exact hne hxv
  · exact hv.table_ne hxv hut
  · exact hu.table_ne hxu (hxv ▸ hvt)
  · exact hmembers hxu hxv

/-- Into a draft that types come into as definitions only, a definition with room in the tables is
refused for a token that it came with, which the message shows. One that came without tokens is always
accepted, as the last type of the draft: it gets the next free row of types, and its methods and fields
get theirs one after the other, and none of these tokens has been in use. -/
theorem define_of_hasRoomFor (hd : d.Defined) (hroom : d.HasRoomFor t) :
    (∀ e, (d.define t).1 = .error e →
      ∃ x, t.Carries x ∧ e.token? = some x ∧ x.ShownIn e.message) ∧
    ((∀ x, ¬t.Carries x) → ∃ u, (d.define t).1 = .ok u.toRef ∧
      (d.define t).2.registry.types = d.registry.types ++ [u] ∧
      t.Completes u ∧ u.token = .typeDef d.nextType ∧
      (∀ kind, u.tokensOf kind =
        (List.range' (d.nextOf kind) (t.tokensOf kind).length).map (.ofParts kind.table)) ∧
      ∀ v ∈ d.registry.types,
        (u.token :: u.memberTokens).Disjoint (v.token :: v.memberTokens)) := by
  refine ⟨fun e herror => ?_, fun hnone => ?_⟩
  · obtain ⟨x, hcarries, hx⟩ := hroom.carries_of_define hd herror
    exact ⟨x, hcarries, hx, MetadataError.shownIn_message hx⟩
  have hsound := hd.reachable.sound
  have htoken : (d.number t).1.token = .typeDef d.nextType := by
    refine token_number_of_null ?_
    by_contra hnull
    exact hnone t.token ⟨hnull, .inl rfl⟩
  cases hdefine : (d.define t).1 with
  | error e =>
    obtain ⟨x, hcarries, -⟩ := hroom.carries_of_define hd hdefine
    exact absurd hcarries (hnone x)
  | ok r =>
    obtain ⟨hfault, rfl, -, htypes, hfresh⟩ := define_eq_ok hdefine
    refine ⟨_, rfl, ?_, t.completes_number d, htoken, hroom.tokensOf_number hnone, fun v hv => ?_⟩
    · exact htypes.trans (Registry.insertSorted_of_forall_lt fun v hv =>
        htoken ▸ hroom.token_lt hsound hv)
    · obtain ⟨hvt, -⟩ := hsound.types v hv
      refine disjoint_tokens (tabled_number hfault) (hd.tabled v hv) ?_ hvt ?_ fun x hx hxv => ?_
      · rw [htoken]
        exact Token.table_ofParts _ _
      · rw [htoken]
        exact (Token.ne_of_lt (hroom.token_lt hsound hv)).symm
      · exact hfresh x hx ((hsound.inUse x).mpr ⟨v, hv, hxv⟩)

/-- A draft with one of the two types that were defined: the second one has the token of the first. -/
def planned : Draft := (empty "Acme.dll" .v4_0).run [
  .define (probe (.typeDef 5)
    [{ Method.ofStatic "first" 0 with token := .methodDef 3 }, .ofStatic "second" 0] []),
  .define (probe (.typeDef 5) [.ofStatic "third" 0] [{ Field.ofStatic "f" with token := .field 7 }])]

/-- A type with the token that the second method got. -/
def borrowing : TypeDef := probe .null [{ Method.ofStatic "m" 0 with token := .methodDef 4 }] []

theorem define_of_hasRoomFor_planned : planned.Defined ∧
    planned.HasRoomFor borrowing ∧ (∃ e, (planned.define borrowing).1 = .error e ∧
      borrowing.Carries (.methodDef 4) ∧ (Token.methodDef 4).ShownIn e.message) ∧
    planned.HasRoomFor another ∧ ∃ u,
      (planned.define another).2.registry.types = planned.registry.types ++ [u] ∧
      u.token = .typeDef 6 ∧ u.memberTokens = [.methodDef 6, .field 8] := by
  have hd : planned.Defined := ⟨_, _, _, by simp, rfl⟩
  have hborrowing : planned.HasRoomFor borrowing := ⟨by decide, by rintro (_ | _) <;> decide⟩
  have hanother : planned.HasRoomFor another := ⟨by decide, by rintro (_ | _) <;> decide⟩
  refine ⟨hd, hborrowing, ?_, hanother, ?_⟩
  · have herror : (planned.define borrowing).1 =
        .error (.memberTokenInUse (.methodDef 4) borrowing.name "Acme.dll") := rfl
    obtain ⟨x, hcarries, hx, hshown⟩ := (define_of_hasRoomFor hd hborrowing).1 _ herror
    obtain rfl : Token.methodDef 4 = x := Option.some.inj hx
    exact ⟨_, herror, hcarries, hshown⟩
  · have hnone : ∀ x, ¬another.Carries x := by
      rintro x ⟨hnull, hx⟩
      have htokens : another.memberTokens = [.null, .null] := rfl
      rw [htokens] at hx
      simp [another, probe, hnull] at hx
    obtain ⟨u, -, htypes, -, htoken, htokens, -⟩ := (define_of_hasRoomFor hd hanother).2 hnone
    refine ⟨u, htypes, htoken, ?_⟩
    have hmethods : u.tokensOf .method = [.methodDef 6] := htokens .method
    have hfields : u.tokensOf .field = [.field 8] := htokens .field
    exact u.memberTokens_eq.trans (congrArg₂ (· ++ ·) hmethods hfields)

end Draft

end ModuleAudit
