import ModuleAudit.Proofs.MemberTokens

/-!
# What holds of a draft at any time

A call on a draft changes it in several places, some of them before the call can still be refused. All
the same, its parts fit together whatever is called: the tokens in use are those of the registered
members, everything registered lies below the next free rows, and these never go back and never leave
the numbers that fit behind a table. So a type without a token always finds its row free.

## Main definitions

* `Draft.Precedes`: a draft that holds all the types of another one, and whose next free rows are not
  below those of the other one.
* `Draft.Fits`: types whose members have tokens below the next free rows.
* `Draft.Sound`: how the parts of a draft fit together.

## Main statements

* `Draft.precedes_run`: calls take no type away, and no row back.
* `Draft.Sound.call`: a sound draft stays sound, whether or not a call is refused.
* `Draft.Sound.free`: the next free row of types is free, unless the table is full.
* `Draft.sound_run`: whatever is called on a new draft, it stays sound, and no type that came without a
  token is refused for its own token.
-/

namespace ModuleAudit

theorem Registry.exists_token_eq_of_insert {r : Registry} {t : TypeDef} {x : Token}
    (h : r.insert t = .error (.typeTokenInUse x)) :
    t.token.isDefinition = true ∧ ∃ u ∈ r.types, u.token = t.token := by
  unfold insert at h
  split at h
  · next hdef =>
    split at h
    · next u hget => exact ⟨hdef, u, get?_eq_some_iff.mp hget⟩
    · cases h
  · cases h

namespace Draft

variable {d d' : Draft} {t u : TypeDef} {c : Call} {calls : List Call}

/-! ### Drafts that grow -/

/-- The second draft holds all types of the first one, and none of its next free rows is below. -/
structure Precedes (d d' : Draft) : Prop where
  types : d.registry.types ⊆ d'.registry.types
  nextType : d.nextType ≤ d'.nextType
  nextMethod : d.nextMethod ≤ d'.nextMethod
  nextField : d.nextField ≤ d'.nextField

theorem Precedes.refl (d : Draft) : d.Precedes d :=
  ⟨List.Subset.refl _, Nat.le_refl _, Nat.le_refl _, Nat.le_refl _⟩

theorem Precedes.trans {d₁ d₂ d₃ : Draft} (h : d₁.Precedes d₂) (h' : d₂.Precedes d₃) :
    d₁.Precedes d₃ where
  types := List.Subset.trans h.types h'.types
  nextType := Nat.le_trans h.nextType h'.nextType
  nextMethod := Nat.le_trans h.nextMethod h'.nextMethod
  nextField := Nat.le_trans h.nextField h'.nextField

theorem precedes_number (d : Draft) (t : TypeDef) : d.Precedes (d.number t).2 where
  types := List.Subset.refl _
  nextType := Nat.le_refl _
  nextMethod := Rows.le_number ..
  nextField := Rows.le_number ..

theorem precedes_depend (d : Draft) (assembly : String) (on : Module) :
    d.Precedes (d.depend assembly on) where
  types := List.Subset.refl _
  nextType := Nat.le_refl _
  nextMethod := Nat.le_refl _
  nextField := Nat.le_refl _

theorem precedes_of_register (h : d.register t = .ok d') : d.Precedes d' := by
  obtain ⟨-, registry, hinsert, rfl⟩ := register_eq_ok_iff.mp h
  exact ⟨fun u hu => (Registry.mem_types_of_insert hinsert).mpr (.inr hu), Nat.le_max_left _ _,
    Nat.le_refl _, Nat.le_refl _⟩

theorem precedes_call (d : Draft) (c : Call) : d.Precedes (d.call c).2 := by
  have hout := outcome d c
  generalize d.call c = o at hout
  cases hout with
  | malformed => exact .refl d
  | linked assembly on => exact d.precedes_depend assembly on
  | refused t => exact d.precedes_number t
  | registered t d' _ done => exact (d.precedes_number t).trans (precedes_of_register done)

theorem precedes_run (d : Draft) (calls : List Call) : d.Precedes (d.run calls) :=
  run_induction (P := d.Precedes) (fun e c h => h.trans (e.precedes_call c)) (.refl d) calls

/-! ### How the parts fit together -/

/-- The members of a type have tokens, in rows below the next free ones. -/
structure Fits (d : Draft) (t : TypeDef) : Prop where
  notNull : .null ∉ t.memberTokens
  method : ∀ m ∈ t.methods, m.token.row < d.nextMethod
  field : ∀ f ∈ t.fields, f.token.row < d.nextField

theorem Fits.of_precedes (h : d.Fits t) (h' : d.Precedes d') : d'.Fits t where
  notNull := h.notNull
  method m hm := Nat.lt_of_lt_of_le (h.method m hm) h'.nextMethod
  field f hf := Nat.lt_of_lt_of_le (h.field f hf) h'.nextField

/-- Numbering makes a type fit. -/
theorem fits_number (d : Draft) (t : TypeDef) : (d.number t).2.Fits (d.number t).1 where
  notNull := by
    rw [memberTokens_number, List.mem_append]
    exact fun h => h.elim (Rows.null_not_mem_number (by decide) _ _)
      (Rows.null_not_mem_number (by decide) _ _)
  method m hm := by
    have hmem := List.mem_map_of_mem (f := Method.token) hm
    rw [map_token_methods_number] at hmem
    exact Rows.row_lt_of_mem_number hmem
  field f hf := by
    have hmem := List.mem_map_of_mem (f := Field.token) hf
    rw [map_token_fields_number] at hmem
    exact Rows.row_lt_of_mem_number hmem

/-- The parts of a draft fit together. -/
structure Sound (d : Draft) : Prop where
  /-- The tokens in use are those of the members of registered types. -/
  inUse : ∀ x, x ∈ d.inUse ↔ ∃ t ∈ d.registry.types, x ∈ t.memberTokens
  /-- Registered types have rows of the table of defined types, below the next free one. -/
  types : ∀ t ∈ d.registry.types,
    t.token.table = Table.typeDef ∧ t.token.row ≠ 0 ∧ t.token.row < d.nextType
  members : ∀ t ∈ d.registry.types, d.Fits t
  /-- The next free rows are rows of their tables, or lie just behind them. -/
  one_le_type : 1 ≤ d.nextType
  type_le : d.nextType ≤ 0x1000000
  rows : d.InRange

theorem sound_empty (name : String) (framework : Framework) : (empty name framework).Sound where
  inUse x := by simp [empty, Registry.empty]
  types := nofun
  members := nofun
  one_le_type := by simp [empty]
  type_le := by simp [empty]
  rows := Reachable.inRange ⟨name, framework, [], rfl⟩

theorem Sound.number (h : d.Sound) (t : TypeDef) : (d.number t).2.Sound where
  inUse := h.inUse
  types := h.types
  members u hu := (h.members u hu).of_precedes (d.precedes_number t)
  one_le_type := h.one_le_type
  type_le := h.type_le
  rows := h.rows.number t

theorem Sound.depend (h : d.Sound) (assembly : String) (on : Module) :
    (d.depend assembly on).Sound where
  inUse := h.inUse
  types := h.types
  members u hu := (h.members u hu).of_precedes (d.precedes_depend assembly on)
  one_le_type := h.one_le_type
  type_le := h.type_le
  rows := ⟨h.rows.one_le_method, h.rows.method_le, h.rows.one_le_field, h.rows.field_le⟩

/-- Registering a type that fits keeps a draft sound. -/
theorem Sound.register (h : d.Sound) (ht : d.Fits t) (hregister : d.register t = .ok d') :
    d'.Sound := by
  have hprecedes := precedes_of_register hregister
  obtain ⟨-, registry, hinsert, rfl⟩ := register_eq_ok_iff.mp hregister
  obtain ⟨hdef, -⟩ := Registry.insert_eq_ok_iff.mp hinsert
  have hmem : ∀ u, u ∈ registry.types ↔ u = t ∨ u ∈ d.registry.types :=
    fun u => Registry.mem_types_of_insert hinsert
  refine ⟨fun x => ?_, fun u hu => ?_, fun u hu => ?_, ?_, Rows.next_le h.type_le _, ?_⟩
  · show x ∈ d.inUse ++ t.memberTokens ↔ ∃ u ∈ registry.types, x ∈ u.memberTokens
    rw [List.mem_append, h.inUse]
    simp only [hmem]
    constructor
    · rintro (⟨u, hu, hx⟩ | hx)
      · exact ⟨u, .inr hu, hx⟩
      · exact ⟨t, .inl rfl, hx⟩
    · rintro ⟨u, rfl | hu, hx⟩
      · exact .inr hx
      · exact .inl ⟨u, hu, hx⟩
  · rcases (hmem u).mp hu with rfl | hu
    · obtain ⟨htable, hrow⟩ := Token.isDefinition_iff.mp hdef
      exact ⟨htable, hrow, Rows.row_lt_next d.nextType u.token⟩
    · obtain ⟨htable, hrow, hlt⟩ := h.types u hu
      exact ⟨htable, hrow, Nat.lt_of_lt_of_le hlt hprecedes.nextType⟩
  · rcases (hmem u).mp hu with rfl | hu
    · exact ht.of_precedes hprecedes
    · exact (h.members u hu).of_precedes hprecedes
  · exact Nat.le_trans h.one_le_type hprecedes.nextType
  · exact ⟨h.rows.one_le_method, h.rows.method_le, h.rows.one_le_field, h.rows.field_le⟩

theorem Sound.call (h : d.Sound) (c : Call) : (d.call c).2.Sound := by
  have hout := outcome d c
  generalize d.call c = o at hout
  cases hout with
  | malformed => exact h
  | linked assembly on => exact h.depend assembly on
  | refused t => exact h.number t
  | registered t d' _ done => exact (h.number t).register (d.fits_number t) done

theorem Reachable.sound (h : d.Reachable) : d.Sound := by
  obtain ⟨name, framework, calls, rfl⟩ := h
  exact run_induction (fun d c hd => hd.call c) (sound_empty name framework) calls

/-! ### Types without a token -/

/-- Only where the table is full can a registered type have the token of the next free row. -/
theorem Sound.free (h : d.Sound) (hu : u ∈ d.registry.types)
    (htoken : u.token = .ofParts Table.typeDef d.nextType) : d.nextType = 0x1000000 := by
  obtain ⟨-, hrow, hlt⟩ := h.types u hu
  rw [htoken, Token.row_ofParts] at hrow hlt
  have := h.type_le
  omega

theorem Sound.register_number_ne_typeTokenInUse (h : d.Sound) (hnull : t.token = .null) (x : Token) :
    (d.number t).2.register (d.number t).1 ≠ .error (.typeTokenInUse x) := by
  have htoken := token_number_of_null (d := d) hnull
  intro herror
  rcases register_eq_error herror with ⟨y, -, -, hmember⟩ | hinsert
  · cases hmember
  · obtain ⟨hdef, u, hu, heq⟩ := Registry.exists_token_eq_of_insert hinsert
    -- behind the last row the type gets row zero, which is no definition
    rw [htoken, h.free hu (heq.trans htoken)] at hdef
    exact absurd hdef (by decide)

/-- A type that came without a token is not refused for a token that is in use. -/
theorem Sound.add_ne_typeTokenInUse (h : d.Sound) (hnull : t.token = .null) (x : Token) :
    (d.add t).1 ≠ .error (.typeTokenInUse x) :=
  fun herror => h.register_number_ne_typeTokenInUse hnull x (add_eq_error herror)

theorem Sound.define_ne_typeTokenInUse (h : d.Sound) (hnull : t.token = .null) (x : Token) :
    (d.define t).1 ≠ .error (.typeTokenInUse x) := by
  intro herror
  rcases define_eq_error herror with hfault | hregister
  · obtain ⟨m, -, -, hm | hm⟩ := Member.firstFault?_eq_some hfault <;> cases hm
  · exact h.register_number_ne_typeTokenInUse hnull x hregister

/-- Whatever is called on a new draft, its parts fit together: the tokens in use are those of the
members of the registered types, and no member is without one; all registered rows lie below the next
free rows, which no call takes back, and which stay between one and the number behind the last row, so
that they can be computed in 32 bits as they are here. A type that comes without a token is not refused
for a token that is in use. -/
theorem sound_run (name : String) (framework : Framework) (calls : List Call) :
    ((empty name framework).run calls).Sound ∧
    (∀ more, ((empty name framework).run calls).Precedes
      (((empty name framework).run calls).run more)) ∧
    (∀ row ≤ 0x1000000, ∀ x : Token,
      (max (UInt32.ofNat row) (UInt32.ofNat x.row + 1)).toNat = Rows.next row x) ∧
    ∀ t x, t.token = .null →
      (((empty name framework).run calls).add t).1 ≠ .error (.typeTokenInUse x) ∧
      (((empty name framework).run calls).define t).1 ≠ .error (.typeTokenInUse x) := by
  have hsound : ((empty name framework).run calls).Sound :=
    run_induction (fun d c hd => hd.call c) (sound_empty name framework) calls
  refine ⟨hsound, precedes_run _, fun row hrow x => Rows.toNat_next hrow x, fun t x hnull => ⟨?_, ?_⟩⟩
  · exact hsound.add_ne_typeTokenInUse hnull x
  · exact hsound.define_ne_typeTokenInUse hnull x

end Draft

end ModuleAudit
