import ModuleAudit.Proofs.Wording
import ModuleAudit.TypeDef.Parts
import ModuleAudit.TypeDef.Wellformed

/-!
# Faults of members

A list of members has no fault exactly if all tokens that it came with belong to their tables, and
each of them differs from all tokens before it. Null tokens are free to repeat. Where there is a
fault, it is that of the first member that gives offence.

## Main definitions

* `Member.Offends`: what is wrong with a member behind others.
* `Member.Faultless`: no member of a list gives offence.
* `TypeDef.tokensOf`: the tokens of the methods of a type, or of its fields.

## Main statements

* `Member.firstFault?_eq_none_iff`: the lists of members without a fault.
* `Member.firstFault?_eq_some_iff`: a fault is that of the first member that has one.
* `TypeDef.table_of_mem_tokensOf`: members without a fault have tokens of their own tables.
* `TypeDef.checked_eq_ok_iff`, `TypeDef.checked_eq_error_iff`: the definitions that pass the check,
  and what the others are refused for.
* `TypeDef.checked_composed`: the check of a definition that was put together from parts.
-/

namespace ModuleAudit

namespace Member

variable {owner : TypeName} {earlier : List Token}

theorem fault?_eq_none_iff {m : Member} : m.fault? owner earlier = none ↔
    (m.token ≠ .null → m.token.table = m.kind.table ∧ m.token ∉ earlier) := by
  unfold fault?
  simp only [Token.isNull_iff]
  by_cases hnull : m.token = .null
  · simp [hnull]
  · by_cases htable : m.token.table = m.kind.table
    · by_cases hmem : m.token ∈ earlier <;> simp [hnull, htable, hmem]
    · simp [hnull, htable]

/-- Looking through a list of members finds no fault exactly if each one is in its table, and new. -/
theorem firstFault?_eq_none_iff {l : List Member} : firstFault? owner earlier l = none ↔
    (∀ m ∈ l, m.token ≠ .null → m.token.table = m.kind.table ∧ m.token ∉ earlier) ∧
      l.Pairwise fun a b => b.token ≠ .null → b.token ≠ a.token := by
  induction l generalizing earlier with
  | nil => simp [firstFault?]
  | cons m rest ih =>
    have hcons : firstFault? owner earlier (m :: rest) = none ↔
        m.fault? owner earlier = none ∧ firstFault? owner (m.token :: earlier) rest = none := by
      rw [firstFault?]
      cases m.fault? owner earlier <;> simp
    rw [hcons, fault?_eq_none_iff, ih, List.forall_mem_cons, List.pairwise_cons]
    -- the token of the first member is one of the earlier tokens for the rest
    constructor
    · rintro ⟨hm, hrest, hpair⟩
      refine ⟨⟨hm, fun b hb hnull => ?_⟩, fun b hb hnull => ?_, hpair⟩
      · obtain ⟨htable, hmem⟩ := hrest b hb hnull
        exact ⟨htable, fun h => hmem (List.mem_cons_of_mem _ h)⟩
      · exact fun h => (hrest b hb hnull).2 (h ▸ List.mem_cons_self)
    · rintro ⟨⟨hm, hrest⟩, hdiffer, hpair⟩
      refine ⟨hm, fun b hb hnull => ?_, hpair⟩
      obtain ⟨htable, hmem⟩ := hrest b hb hnull
      refine ⟨htable, fun h => ?_⟩
      rcases List.mem_cons.mp h with h | h
      · exact hdiffer b hb hnull h
      · exact hmem h

/-- A fault is that of the first member that has one. -/
theorem firstFault?_eq_some_iff {l : List Member} {e : MetadataError} :
    firstFault? owner earlier l = some e ↔ ∃ before m after, l = before ++ m :: after ∧
      firstFault? owner earlier before = none ∧
      m.fault? owner ((before.map (·.token)).reverse ++ earlier) = some e := by
  induction l generalizing earlier with
  | nil => simp [firstFault?]
  | cons m rest ih =>
    rw [firstFault?]
    cases hm : m.fault? owner earlier with
    | some f =>
      constructor
      · rintro ⟨⟩
        exact ⟨[], m, rest, rfl, rfl, hm⟩
      · rintro ⟨before, x, after, hsplit, hnone, hx⟩
        cases before with
        | nil =>
          obtain ⟨rfl, -⟩ := List.cons.inj hsplit
          exact hm.symm.trans hx
        | cons y before =>
          -- a member with a fault is not among those before the first one
          obtain ⟨rfl, -⟩ := List.cons.inj hsplit
          simp [firstFault?, hm] at hnone
    | none =>
      simp only [ih]
      constructor
      · rintro ⟨before, x, after, rfl, hnone, hx⟩
        refine ⟨m :: before, x, after, rfl, ?_, ?_⟩
        · simpa [firstFault?, hm] using hnone
        · simpa using hx
      · rintro ⟨before, x, after, hsplit, hnone, hx⟩
        cases before with
        | nil =>
          obtain ⟨rfl, -⟩ := List.cons.inj hsplit
          have hx : m.fault? owner earlier = some e := hx
          rw [hm] at hx
          cases hx
        | cons y before =>
          obtain ⟨rfl, rfl⟩ := List.cons.inj hsplit
          refine ⟨before, x, after, rfl, ?_, ?_⟩
          · simpa [firstFault?, hm] using hnone
          · simpa using hx

/-- What is wrong with a member behind others with the given tokens: its token is not of its table, or
else one of them has the same. -/
inductive Offends (owner : TypeName) (earlier : List Token) (m : Member) : MetadataError → Prop
  | foreign (given : m.token ≠ .null) (table : m.token.table ≠ m.kind.table) :
    Offends owner earlier m (.wrongMemberTable m owner)
  | again (given : m.token ≠ .null) (table : m.token.table = m.kind.table)
      (used : m.token ∈ earlier) : Offends owner earlier m (.repeatedMemberToken m owner)

theorem fault?_eq_some_iff {m : Member} {e : MetadataError} :
    m.fault? owner earlier = some e ↔ m.Offends owner earlier e := by
  unfold fault?
  constructor
  · intro h
    split at h
    · cases h
    · next hnull =>
      have given : m.token ≠ .null := fun h => hnull (Token.isNull_iff.mpr h)
      split at h
      · next htable =>
        cases h
        exact .foreign given htable
      · next htable =>
        split at h
        · next hused =>
          cases h
          exact .again given (Decidable.not_not.mp htable) hused
        · cases h
  · intro h
    cases h with
    | foreign given table => rw [if_neg (mt Token.isNull_iff.mp given), if_pos table]
    | again given table used =>
      rw [if_neg (mt Token.isNull_iff.mp given), if_neg (not_not_intro table), if_pos used]

theorem fault?_reverse (m : Member) : m.fault? owner earlier.reverse = m.fault? owner earlier := by
  simp only [fault?, List.mem_reverse]

/-- A fault of a list of members is that of one with a token, in one of the two ways. -/
theorem firstFault?_eq_some {l : List Member} {fault : MetadataError}
    (h : firstFault? owner earlier l = some fault) : ∃ m ∈ l, m.token ≠ .null ∧
      (fault = .wrongMemberTable m owner ∨ fault = .repeatedMemberToken m owner) := by
  obtain ⟨before, m, after, rfl, -, hm⟩ := firstFault?_eq_some_iff.mp h
  refine ⟨m, List.mem_append_right _ List.mem_cons_self, ?_⟩
  cases fault?_eq_some_iff.mp hm with
  | foreign given _ => exact ⟨given, .inl rfl⟩
  | again given _ _ => exact ⟨given, .inr rfl⟩

/-- The members of a list that came with tokens have them of their own tables, and no two the same. -/
structure Faultless (l : List Member) : Prop where
  tables : ∀ m ∈ l, m.token ≠ .null → m.token.table = m.kind.table
  distinct : ((l.map (·.token)).filter (· ≠ .null)).Nodup

/-- Where no member comes before a list, it has no fault exactly if it is faultless. -/
theorem firstFault?_nil_eq_none_iff {l : List Member} :
    firstFault? owner [] l = none ↔ Faultless l := by
  have hpair : ((l.map (·.token)).filter (· ≠ .null)).Nodup ↔
      l.Pairwise fun a b => b.token ≠ .null → b.token ≠ a.token := by
    rw [List.Nodup, List.pairwise_filter, List.pairwise_map]
    refine ⟨fun h => h.imp ?_, fun h => h.imp ?_⟩
    · intro a b hab hb heq
      rw [heq] at hb
      exact hab (by simpa using hb) (by simpa [heq] using hb) heq.symm
    · intro a b hab _ hb heq
      exact hab (by simpa using hb) heq.symm
  rw [firstFault?_eq_none_iff]
  constructor
  · rintro ⟨htables, hdiffer⟩
    exact ⟨fun m hm given => (htables m hm given).1, hpair.mpr hdiffer⟩
  · rintro ⟨htables, hdistinct⟩
    exact ⟨fun m hm given => ⟨htables m hm given, List.not_mem_nil⟩, hpair.mp hdistinct⟩

end Member

namespace TypeDef

variable {t : TypeDef} {x : Token}

def tokensOf (t : TypeDef) : MemberKind → List Token
  | .method => t.methods.map (·.token)
  | .field => t.fields.map (·.token)

theorem mem_memberTokens_iff : x ∈ t.memberTokens ↔ ∃ kind, x ∈ t.tokensOf kind := by
  rw [memberTokens_eq, List.mem_append]
  constructor
  · rintro (h | h)
    · exact ⟨.method, h⟩
    · exact ⟨.field, h⟩
  · rintro ⟨_ | _, h⟩
    · exact .inl h
    · exact .inr h

/-- In a definition without a fault, the members that have tokens have them of their own tables. -/
theorem table_of_mem_tokensOf (h : t.fault? = none) (kind : MemberKind) :
    ∀ x ∈ t.tokensOf kind, x ≠ .null → x.table = kind.table := by
  obtain ⟨htable, -⟩ := Member.firstFault?_eq_none_iff.mp h
  intro x hx hnull
  cases kind with
  | method =>
    obtain ⟨m, hm, rfl⟩ := List.mem_map.mp hx
    exact (htable m.toMember (List.mem_append_left _ (List.mem_map_of_mem hm)) hnull).1
  | field =>
    obtain ⟨f, hf, rfl⟩ := List.mem_map.mp hx
    exact (htable f.toMember (List.mem_append_right _ (List.mem_map_of_mem hf)) hnull).1

/-- The check on a definition hands on the definition itself. -/
theorem checked_eq_ok_iff {u : TypeDef} :
    t.checked = .ok u ↔ t.fault? = none ∧ u = t := by
  unfold checked
  cases t.fault? with
  | some fault => simp
  | none => simp [eq_comm]

/-- A definition is refused for what is wrong with the first of its members that gives offence. -/
theorem checked_eq_error_iff {e : MetadataError} :
    t.checked = .error e ↔ ∃ before m after, t.members = before ++ m :: after ∧
      Member.Faultless before ∧ m.Offends t.name (before.map (·.token)) e := by
  have hfault : t.checked = .error e ↔ t.fault? = some e := by
    unfold checked
    cases t.fault? <;> simp
  rw [hfault, fault?, Member.firstFault?_eq_some_iff]
  simp only [List.append_nil, Member.fault?_reverse, Member.fault?_eq_some_iff,
    Member.firstFault?_nil_eq_none_iff]

/-- Methods and fields have tables of their own, but a token counts for all members of a type. -/
theorem faultless_members_iff : Member.Faultless t.members ↔
    (∀ m ∈ t.methods, m.token ≠ .null → m.token.table = Table.methodDef) ∧
      (∀ f ∈ t.fields, f.token ≠ .null → f.token.table = Table.field) ∧
      (t.memberTokens.filter (· ≠ .null)).Nodup := by
  constructor
  · rintro ⟨htables, hdistinct⟩
    refine ⟨fun m hm => ?_, fun f hf => ?_, hdistinct⟩
    · exact htables m.toMember (List.mem_append_left _ (List.mem_map_of_mem hm))
    · exact htables f.toMember (List.mem_append_right _ (List.mem_map_of_mem hf))
  · rintro ⟨hmethods, hfields, hdistinct⟩
    refine ⟨fun x hx => ?_, hdistinct⟩
    rcases List.mem_append.mp hx with hx | hx
    · obtain ⟨m, hm, rfl⟩ := List.mem_map.mp hx
      exact hmethods m hm
    · obtain ⟨f, hf, rfl⟩ := List.mem_map.mp hx
      exact hfields f hf

/-- A definition that was put together from parts passes the check exactly if the methods and the fields
that came with tokens have them of their own tables, and no two members the same one. Then it is
handed on as it is, with its methods and its fields in the order of the parts. Otherwise it is refused
for the first member, methods before fields, whose token is not of its table or is that of a member
before it, and the wording shows this token. -/
theorem checked_composed (name : TypeName) (flags : UInt32) (parts : List Part) :
    ((∃ u, (composed name flags parts).checked = .ok u) ↔
      (∀ m ∈ Part.methods parts, m.token ≠ .null → m.token.table = Table.methodDef) ∧
      (∀ f ∈ Part.fields parts, f.token ≠ .null → f.token.table = Table.field) ∧
      (((Part.methods parts).map (·.token) ++ (Part.fields parts).map (·.token)).filter
        (· ≠ .null)).Nodup) ∧
    (∀ u, (composed name flags parts).checked = .ok u → u = composed name flags parts ∧
      u.methods = Part.methods parts ∧ u.fields = Part.fields parts) ∧
    ∀ e, (composed name flags parts).checked = .error e ↔ ∃ before m after,
      (Part.methods parts).map (·.toMember) ++ (Part.fields parts).map (·.toMember) =
        before ++ m :: after ∧
      Member.Faultless before ∧ m.Offends name (before.map (·.token)) e ∧
      m.token.ShownIn e.message := by
  refine ⟨?_, fun u hu => ?_, fun e => ?_⟩
  · have hok : (∃ u, (composed name flags parts).checked = .ok u) ↔
        Member.Faultless (composed name flags parts).members := by
      simp [checked_eq_ok_iff, fault?, Member.firstFault?_nil_eq_none_iff]
    rw [hok, faultless_members_iff, memberTokens_eq, methods_composed, fields_composed]
  · obtain ⟨-, rfl⟩ := checked_eq_ok_iff.mp hu
    exact ⟨rfl, methods_composed name flags parts, fields_composed name flags parts⟩
  · have hshown : ∀ before m, Member.Offends name before m e → m.token.ShownIn e.message := by
      intro before m hoffends
      cases hoffends <;> exact MetadataError.shownIn_message rfl
    rw [checked_eq_error_iff, members, methods_composed, fields_composed, name_composed]
    constructor
    · rintro ⟨before, m, after, hsplit, hbefore, hoffends⟩
      exact ⟨before, m, after, hsplit, hbefore, hoffends, hshown _ m hoffends⟩
    · rintro ⟨before, m, after, hsplit, hbefore, hoffends, -⟩
      exact ⟨before, m, after, hsplit, hbefore, hoffends⟩

/-- A field that was declared first counts behind the methods: here the second method gives offence. -/
example : (composed ⟨"Acme", "Tool"⟩ 0 [.field { Field.ofStatic "size" with token := .methodDef 1 },
    .method { Method.ofStatic "open" 0 with token := .methodDef 1 },
    .method { Method.ofStatic "close" 0 with token := .methodDef 1 }]).checked =
      .error (.repeatedMemberToken ⟨.method, "close", .methodDef 1⟩ ⟨"Acme", "Tool"⟩) := rfl

end TypeDef

end ModuleAudit
