import ModuleAudit.Proofs.Draft

/-!
# Member tokens of a draft

A type is refused if one of its members has a token of a type before it. Within the type itself only
the tokens that came with a definition are compared, before the others get their rows. So a module
has one token for two members exactly if a call brings them in with one and the same type.

## Main definitions

* `Draft.Repeats`: the ways in which numbering gives one token to two members of a type.
* `Draft.Accepts`: the calls that are not refused.
* `Draft.built`: the types of the module that comes of a draft.

## Main statements

* `Draft.nodup_memberTokens_number_iff`: the members of a numbered type have different tokens exactly
  if it repeats none.
* `Draft.Tracked.call`: the tokens in use are the tokens of all members of all registered types.
* `Draft.nodup_call_iff`: when different tokens stay different over a call.
* `Draft.nodup_built_iff`: when the members of a module have different tokens.
* `Draft.repeats_iff_of_checked`: in a well-formed definition, numbering is the only way to repeat.
-/

namespace ModuleAudit

namespace Registry

def memberTokens (r : Registry) : List Token := r.types.flatMap (·.memberTokens)

theorem memberTokens_of_insert {r r' : Registry} {t : TypeDef} (h : r.insert t = .ok r') :
    r'.memberTokens.Perm (r.memberTokens ++ t.memberTokens) := by
  obtain ⟨-, -, htypes, -⟩ := insert_eq_ok_iff.mp h
  unfold memberTokens
  rw [htypes]
  refine ((perm_insertSorted t r.types).flatMap_right _).trans ?_
  rw [List.flatMap_cons]
  exact List.perm_append_comm

end Registry

namespace Draft

variable {d d' : Draft} {t : TypeDef} {c : Call}

/-! ### Tokens of one type -/

/-- Numbering gives one token to two members of a type. -/
inductive Repeats (d : Draft) (t : TypeDef) : Prop
  | methods (repeats : Rows.Repeats Table.methodDef d.nextMethod (t.methods.map (·.token)))
  | fields (repeats : Rows.Repeats Table.field d.nextField (t.fields.map (·.token)))
  | across (x : Token)
      (method : x ∈ (Rows.number Table.methodDef d.nextMethod (t.methods.map (·.token))).1)
      (field : x ∈ (Rows.number Table.field d.nextField (t.fields.map (·.token))).1)

theorem nodup_memberTokens_number_iff (h : d.InRange) :
    (d.number t).1.memberTokens.Nodup ↔ ¬d.Repeats t := by
  rw [memberTokens_number, List.nodup_append, Rows.nodup_number_iff (by decide) h.method_le,
    Rows.nodup_number_iff (by decide) h.field_le]
  constructor
  · rintro ⟨hmethods, hfields, hacross⟩ (hrep | hrep | ⟨x, hmethod, hfield⟩)
    · exact hmethods hrep
    · exact hfields hrep
    · exact hacross x hmethod x hfield rfl
  · intro hrep
    refine ⟨fun h => hrep (.methods h), fun h => hrep (.fields h), ?_⟩
    rintro x hmethod y hfield rfl
    exact hrep (.across x hmethod hfield)

/-- The check on definitions leaves only repeated tokens that numbering brings in. -/
theorem repeats_iff_of_checked (h : t.checked = .ok t) : d.Repeats t ↔
    Rows.Collides Table.methodDef d.nextMethod (t.methods.map (·.token)) ∨
      Rows.Collides Table.field d.nextField (t.fields.map (·.token)) := by
  obtain ⟨hfault, -⟩ := TypeDef.checked_eq_ok_iff.mp h
  obtain ⟨-, hpair⟩ := Member.firstFault?_eq_none_iff.mp hfault
  unfold TypeDef.members at hpair
  obtain ⟨hmethods, hfields, -⟩ := List.pairwise_append.mp hpair
  have hmethods := Rows.repeats_iff_collides Table.methodDef d.nextMethod
    (List.pairwise_map.mpr (List.pairwise_map.mp hmethods))
  have hfields := Rows.repeats_iff_collides Table.field d.nextField
    (List.pairwise_map.mpr (List.pairwise_map.mp hfields))
  constructor
  · rintro (hrep | hrep | ⟨x, hmethod, hfield⟩)
    · exact .inl (hmethods.mp hrep)
    · exact .inr (hfields.mp hrep)
    · -- methods and fields live in different tables
      have hx := Rows.table_of_mem_number (TypeDef.table_of_mem_tokensOf hfault .method) hmethod
      have hx' := Rows.table_of_mem_number (TypeDef.table_of_mem_tokensOf hfault .field) hfield
      exact absurd (hx.symm.trans hx') (by decide)
  · rintro (hrep | hrep)
    · exact .methods (hmethods.mpr hrep)
    · exact .fields (hfields.mpr hrep)

/-! ### Tokens of all types -/

/-- Whether the tokens in use are the tokens of all members of all registered types. -/
def Tracked (d : Draft) : Prop := d.inUse.Perm d.registry.memberTokens

theorem Tracked.call (h : d.Tracked) (c : Call) : (d.call c).2.Tracked := by
  have hout := outcome d c
  generalize d.call c = o at hout
  cases hout with
  | malformed => exact h
  | linked => exact h
  | refused => exact h
  | registered t d' _ done =>
    obtain ⟨-, registry, hinsert, rfl⟩ := register_eq_ok_iff.mp done
    have happend : (d.inUse ++ (d.number t).1.memberTokens).Perm
        (d.registry.memberTokens ++ (d.number t).1.memberTokens) := List.Perm.append_right _ h
    exact happend.trans (Registry.memberTokens_of_insert hinsert).symm

theorem Reachable.tracked (h : d.Reachable) : d.Tracked := by
  obtain ⟨name, framework, calls, rfl⟩ := h
  exact run_induction (fun d c hd => hd.call c) (.refl _) calls

def Accepts (d : Draft) (c : Call) : Prop := ∃ a, (d.call c).1 = .ok a

theorem call_eq_error_of_mem (h : d.Tracked) (hnum : c.numbered? = some t) {x : Token}
    (hx : x ∈ (d.number t).1.memberTokens) (hused : x ∈ d.registry.memberTokens) :
    ∃ e, (d.call c).1 = .error e := by
  cases hcall : (d.call c).1 with
  | error e => exact ⟨e, rfl⟩
  | ok a =>
    obtain ⟨-, -, -, hfresh⟩ := registered_of_call hnum hcall
    exact absurd (h.mem_iff.mpr hused) (hfresh x hx)

/-- Different tokens stay different over a call, unless it registers a type that repeats one. -/
theorem nodup_call_iff (hrange : d.InRange) (h : d.Tracked) (c : Call) :
    (d.call c).2.registry.memberTokens.Nodup ↔ d.registry.memberTokens.Nodup ∧
      ∀ t, c.numbered? = some t → d.Accepts c → ¬d.Repeats t := by
  unfold Accepts
  have hout := outcome d c
  generalize d.call c = o at hout
  cases hout with
  | malformed fault hnum =>
    refine (and_iff_left fun t _ haccept => ?_).symm
    obtain ⟨a, ha⟩ := haccept
    cases ha
  | linked assembly on isDepend =>
    refine (and_iff_left fun t hnum => ?_).symm
    rw [isDepend] at hnum
    cases hnum
  | refused t e hnum =>
    refine (and_iff_left fun t _ haccept => ?_).symm
    obtain ⟨a, ha⟩ := haccept
    cases ha
  | registered t d' hnum done =>
    obtain ⟨hfresh, registry, hinsert, rfl⟩ := register_eq_ok_iff.mp done
    -- the new tokens differ from all others, so only two of them can be equal
    have hmem : ∀ x ∈ d.registry.memberTokens, ∀ y ∈ (d.number t).1.memberTokens, x ≠ y := by
      rintro x hx y hy rfl
      exact hfresh x hy (h.mem_iff.mpr hx)
    rw [(Registry.memberTokens_of_insert hinsert).nodup_iff, List.nodup_append,
      nodup_memberTokens_number_iff hrange]
    constructor
    · rintro ⟨hnodup, hrep, -⟩
      refine ⟨hnodup, fun u hu _ => ?_⟩
      rw [hnum] at hu
      cases hu
      exact hrep
    · rintro ⟨hnodup, hrep⟩
      exact ⟨hnodup, hrep t hnum ⟨_, rfl⟩, hmem⟩

def built (d : Draft) (w : World) : List TypeDef := (d.finish w).1.types (d.finish w).2

theorem built_eq (d : Draft) (w : World) : d.built w = d.registry.types :=
  World.types_eq_of_lookup (w.registry?_add_self d.registry)

/-- The members of a module have different tokens exactly if none of the calls that it comes of has
brought in a type that repeats a token. Only within one type can this happen: a call is refused if
its type has a member token of the module so far. -/
theorem nodup_built_iff (name : String) (framework : Framework) (calls : List Call) (w : World) :
    (((((empty name framework).run calls).built w).flatMap (·.memberTokens)).Nodup ↔
      ∀ before c after, calls = before ++ c :: after → ∀ t, c.numbered? = some t →
        ((empty name framework).run before).Accepts c →
          ¬((empty name framework).run before).Repeats t) ∧
    ∀ c t x, c.numbered? = some t → x ∈ (((empty name framework).run calls).number t).1.memberTokens →
      x ∈ (((empty name framework).run calls).built w).flatMap (·.memberTokens) →
        ∃ e, (((empty name framework).run calls).call c).1 = .error e := by
  rw [built_eq]
  have hreach : ((empty name framework).run calls).Reachable := ⟨name, framework, calls, rfl⟩
  refine ⟨?_, fun c t x hnum hx hused => call_eq_error_of_mem hreach.tracked hnum hx hused⟩
  show (Registry.memberTokens _).Nodup ↔ _
  clear hreach
  induction calls using List.reverseRecOn with
  | nil =>
    refine iff_of_true List.nodup_nil fun before c after hsplit => ?_
    exact absurd hsplit (by simp)
  | append_singleton calls c ih =>
    have hreach : ((empty name framework).run calls).Reachable := ⟨name, framework, calls, rfl⟩
    rw [run_concat, nodup_call_iff hreach.inRange hreach.tracked, ih]
    exact forall_split_concat_iff.symm

/-- Two methods of a new module: the first one gets the row that the second one has. -/
def overlapping : TypeDef := probe .null
  [.ofStatic "first" 0, { Method.ofStatic "second" 0 with token := .methodDef 1 }] []

theorem not_nodup_built_overlapping :
    ((empty "Acme.dll" .v4_0).call (.define overlapping)).1 =
        .ok (.defined (.toDefinition (.typeDef 1) overlapping.name)) ∧
      ¬((((empty "Acme.dll" .v4_0).run [.define overlapping]).built .empty).flatMap
        (·.memberTokens)).Nodup := by
  have htokens : (((empty "Acme.dll" .v4_0).run [.define overlapping]).built .empty).flatMap
      (·.memberTokens) = [.methodDef 1, .methodDef 1] := rfl
  refine ⟨rfl, ?_⟩
  rw [htokens]
  decide

end Draft

end ModuleAudit
