import ModuleAudit.Proofs.Rows
import ModuleAudit.Proofs.Wellformed

/-!
# Calls on a draft

A draft grows call by call. A call tells that a type is registered, or why it is refused, and leaves
a draft behind in either case. Here it is said once what a call can do; from that follows what all
calls keep, and what a refused call leaves behind.

## Main definitions

* `Draft.Call`, `Draft.call`: the calls, what each one tells, and the draft thereafter.
* `Draft.run`, `Draft.answers`: what many calls leave behind and tell.
* `Draft.Outcome`: the four ways in which a call ends.
* `Draft.Reachable`: the drafts that calls on a new draft lead to.
* `Draft.Alike`: drafts that no later call tells apart.
* `Draft.nextOf`: the next free row of methods, or of fields.
* `Draft.TakesNone`: the calls that hand out no row.

## Main statements

* `Draft.outcome`: each call ends in one of the four ways.
* `Draft.registered_of_call`, `Draft.refused_of_call`: what an accepted call registers, and what a
  refused one failed at.
* `Draft.InRange.call`: the next free rows stay within their tables.
* `Draft.call_refused`: a refused call leaves all as it was but the next free rows, and these exactly
  if its type takes none.
-/

namespace ModuleAudit

namespace Draft

variable {d d' : Draft} {t : TypeDef}

/-! ### Calls -/

inductive Call where
  | define (t : TypeDef)
  | add (t : TypeDef)
  | depend (assembly : String) (on : Module)

inductive Answer where
  | defined (ref : TypeRef)
  | added (t : TypeDef)
  | linked

/-- What a call tells, and the draft thereafter. -/
def call (d : Draft) : Call → Except MetadataError Answer × Draft
  | .define t => ((d.define t).1.map .defined, (d.define t).2)
  | .add t => ((d.add t).1.map .added, (d.add t).2)
  | .depend assembly on => (.ok .linked, d.depend assembly on)

def run (d : Draft) (calls : List Call) : Draft := calls.foldl (fun d c => (d.call c).2) d

def answers (d : Draft) : List Call → List (Except MetadataError Answer)
  | [] => []
  | c :: rest => (d.call c).1 :: (d.call c).2.answers rest

def Reachable (d : Draft) : Prop := ∃ name framework calls, d = (empty name framework).run calls

theorem run_induction {P : Draft → Prop} (step : ∀ d c, P d → P (d.call c).2) (h : P d)
    (calls : List Call) : P (d.run calls) := by
  induction calls generalizing d with
  | nil => exact h
  | cons c rest ih => exact ih (step d c h)

theorem run_concat (d : Draft) (calls : List Call) (c : Call) :
    d.run (calls ++ [c]) = ((d.run calls).call c).2 := by
  unfold run
  rw [List.foldl_append]
  rfl

/-- The type whose members a call numbers. A malformed definition does not get that far. -/
def Call.numbered? : Call → Option TypeDef
  | define t => t.checked.toOption
  | add t => some t
  | depend .. => none

def Call.answer : Call → TypeDef → Answer
  | define _, t => .defined t.toRef
  | add _, t => .added t
  | depend .., _ => .linked

/-! ### Numbering and registering a type -/

theorem number_snd (d : Draft) (t : TypeDef) : (d.number t).2 =
    { d with
      nextMethod := (Rows.number Table.methodDef d.nextMethod (t.methods.map (·.token))).2
      nextField := (Rows.number Table.field d.nextField (t.fields.map (·.token))).2 } := rfl

theorem number_registry (d : Draft) (t : TypeDef) : (d.number t).2.registry = d.registry := rfl

theorem zipWith_snd {α β : Type} {l : List α} {k : List β} (h : k.length = l.length) :
    l.zipWith (fun _ b => b) k = k := by
  induction l generalizing k with
  | nil =>
    rw [List.length_eq_zero_iff.mp h]
    rfl
  | cons a l ih =>
    cases k with
    | nil => rfl
    | cons b k => rw [List.zipWith_cons_cons, ih (Nat.succ_inj.mp h)]

theorem map_token_methods_number (d : Draft) (t : TypeDef) :
    (d.number t).1.methods.map (·.token) =
      (Rows.number Table.methodDef d.nextMethod (t.methods.map (·.token))).1 := by
  have hlength := Rows.length_number Table.methodDef d.nextMethod (t.methods.map (·.token))
  rw [List.length_map] at hlength
  conv_rhs => rw [← zipWith_snd hlength]
  exact List.map_zipWith

theorem map_token_fields_number (d : Draft) (t : TypeDef) :
    (d.number t).1.fields.map (·.token) =
      (Rows.number Table.field d.nextField (t.fields.map (·.token))).1 := by
  have hlength := Rows.length_number Table.field d.nextField (t.fields.map (·.token))
  rw [List.length_map] at hlength
  conv_rhs => rw [← zipWith_snd hlength]
  exact List.map_zipWith

theorem memberTokens_number (d : Draft) (t : TypeDef) : (d.number t).1.memberTokens =
    (Rows.number Table.methodDef d.nextMethod (t.methods.map (·.token))).1 ++
      (Rows.number Table.field d.nextField (t.fields.map (·.token))).1 := by
  rw [TypeDef.memberTokens_eq, map_token_methods_number, map_token_fields_number]

def nextOf (d : Draft) : MemberKind → Nat
  | .method => d.nextMethod
  | .field => d.nextField

theorem tokensOf_number (d : Draft) (t : TypeDef) (kind : MemberKind) :
    (d.number t).1.tokensOf kind =
      (Rows.number kind.table (d.nextOf kind) (t.tokensOf kind)).1 := by
  cases kind with
  | method => exact map_token_methods_number d t
  | field => exact map_token_fields_number d t

theorem token_number_of_null (h : t.token = .null) : (d.number t).1.token = .typeDef d.nextType := by
  show Rows.fill Table.typeDef d.nextType t.token = _
  rw [h, Rows.fill_null]
  rfl

theorem token_number_of_ne_null (h : t.token ≠ .null) : (d.number t).1.token = t.token :=
  Rows.fill_of_ne_null h

theorem register_eq_ok_iff : d.register t = .ok d' ↔ (∀ x ∈ t.memberTokens, x ∉ d.inUse) ∧
    ∃ registry, d.registry.insert t = .ok registry ∧
      d' = { d with
        registry
        nextType := Rows.next d.nextType t.token
        inUse := d.inUse ++ t.memberTokens } := by
  unfold register
  split
  · next x hfind =>
    have hmem := List.mem_of_find?_eq_some hfind
    have hused : x ∈ d.inUse := by simpa using List.find?_some hfind
    simp only [reduceCtorEq, false_iff, not_and]
    intro hfresh
    exact absurd hused (hfresh x hmem)
  · next hfind =>
    have hfresh : ∀ x ∈ t.memberTokens, x ∉ d.inUse := by simpa using hfind
    cases d.registry.insert t with
    | error e => simp
    | ok registry =>
      constructor
      · intro h
        cases h
        exact ⟨hfresh, registry, rfl, rfl⟩
      · rintro ⟨-, registry', hinsert, rfl⟩
        cases hinsert
        rfl

/-- A numbered type is refused for a member token that is in use, or by the registry. -/
theorem register_eq_error {e : MetadataError} (h : d.register t = .error e) :
    (∃ x ∈ t.memberTokens, x ∈ d.inUse ∧ e = .memberTokenInUse x t.name d.name) ∨
      d.registry.insert t = .error e := by
  unfold register at h
  split at h
  · next x hfind =>
    cases h
    have hused : x ∈ d.inUse := by simpa using List.find?_some hfind
    exact .inl ⟨x, List.mem_of_find?_eq_some hfind, hused, rfl⟩
  · split at h
    · next hinsert =>
      cases h
      exact .inr hinsert
    · cases h

/-! ### The end of a call -/

/-- The ways in which a call on a draft ends, with what it tells and the draft it leaves behind. -/
inductive Outcome (d : Draft) (c : Call) : Except MetadataError Answer × Draft → Prop
  /-- A definition is refused for what it is. -/
  | malformed (fault : MetadataError) (unnumbered : c.numbered? = none) :
    Outcome d c (.error fault, d)
  /-- References are led to another module. -/
  | linked (assembly : String) (on : Module) (isDepend : c = .depend assembly on) :
    Outcome d c (.ok .linked, d.depend assembly on)
  /-- A type with numbered members is refused. -/
  | refused (t : TypeDef) (e : MetadataError) (numbered : c.numbered? = some t)
      (failed : (d.number t).2.register (d.number t).1 = .error e) :
    Outcome d c (.error e, (d.number t).2)
  /-- A type with numbered members is registered. -/
  | registered (t : TypeDef) (d' : Draft) (numbered : c.numbered? = some t)
      (done : (d.number t).2.register (d.number t).1 = .ok d') :
    Outcome d c (.ok (c.answer (d.number t).1), d')

theorem checked_of_numbered {u : TypeDef} (h : (Call.define u).numbered? = some t) :
    u.checked = .ok t := by
  cases hu : u.checked <;> rw [Call.numbered?, hu] at h <;> cases h
  rfl

theorem call_of_numbered {c : Call} (hnum : c.numbered? = some t) :
    d.call c = match (d.number t).2.register (d.number t).1 with
      | .error e => (.error e, (d.number t).2)
      | .ok d' => (.ok (c.answer (d.number t).1), d') := by
  cases c with
  | define u =>
    have hchecked : u.checked = .ok t := checked_of_numbered hnum
    obtain ⟨-, rfl⟩ := TypeDef.checked_eq_ok_iff.mp hchecked
    simp only [call, define, hchecked, add]
    cases (d.number t).2.register (d.number t).1 <;> rfl
  | add u =>
    cases hnum
    simp only [call, add]
    cases (d.number t).2.register (d.number t).1 <;> rfl
  | depend assembly on => cases hnum

theorem outcome (d : Draft) (c : Call) : Outcome d c (d.call c) := by
  cases hnum : c.numbered? with
  | some t =>
    rw [call_of_numbered hnum]
    cases hreg : (d.number t).2.register (d.number t).1 with
    | error e => exact .refused t e hnum hreg
    | ok d' => exact .registered t d' hnum hreg
  | none =>
    cases c with
    | define t =>
      cases hc : t.checked with
      | error fault =>
        have hcall : d.call (.define t) = (.error fault, d) := by
          simp only [call, define, hc]
          rfl
        rw [hcall]
        exact .malformed fault hnum
      | ok u =>
        rw [Call.numbered?, hc] at hnum
        cases hnum
    | add t => cases hnum
    | depend assembly on => exact .linked assembly on rfl

theorem numbered_of_fault? (h : t.fault? = none) : (Call.define t).numbered? = some t := by
  rw [Call.numbered?, TypeDef.checked_eq_ok_iff.mpr ⟨h, rfl⟩]
  rfl

/-- What an accepted call registers is its type with the missing tokens. -/
theorem registered_of_call {c : Call} {a : Answer} (hnum : c.numbered? = some t)
    (h : (d.call c).1 = .ok a) :
    a = c.answer (d.number t).1 ∧ (d.number t).1.token.isDefinition = true ∧
      (d.call c).2.registry.types = Registry.insertSorted (d.number t).1 d.registry.types ∧
      ∀ x ∈ (d.number t).1.memberTokens, x ∉ d.inUse := by
  rw [call_of_numbered hnum] at h ⊢
  cases hregister : (d.number t).2.register (d.number t).1 with
  | error e =>
    rw [hregister] at h
    cases h
  | ok d' =>
    rw [hregister] at h
    cases h
    obtain ⟨hfresh, registry, hinsert, rfl⟩ := register_eq_ok_iff.mp hregister
    obtain ⟨hdef, -, htypes, -⟩ := Registry.insert_eq_ok_iff.mp hinsert
    exact ⟨rfl, hdef, htypes, hfresh⟩

theorem refused_of_call {c : Call} {e : MetadataError} (hnum : c.numbered? = some t)
    (h : (d.call c).1 = .error e) : (d.number t).2.register (d.number t).1 = .error e := by
  rw [call_of_numbered hnum] at h
  cases hregister : (d.number t).2.register (d.number t).1 with
  | error e' =>
    rw [hregister] at h
    cases h
    rfl
  | ok d' =>
    rw [hregister] at h
    cases h

theorem add_eq_error {e : MetadataError} (h : (d.add t).1 = .error e) :
    (d.number t).2.register (d.number t).1 = .error e :=
  refused_of_call (c := .add t) rfl (congrArg (Except.map Answer.added) h)

/-- A definition is refused for what it is, or where its numbered type is. -/
theorem define_eq_error {e : MetadataError} (h : (d.define t).1 = .error e) :
    t.fault? = some e ∨ (d.number t).2.register (d.number t).1 = .error e := by
  cases hfault : t.fault? with
  | some fault =>
    have hchecked : t.checked = .error fault := by rw [TypeDef.checked, hfault]
    simp only [define, hchecked] at h
    cases h
    exact .inl rfl
  | none =>
    exact .inr (refused_of_call (numbered_of_fault? hfault) (congrArg (Except.map Answer.defined) h))

/-- A definition that is accepted is well formed, and refers to its numbered type. -/
theorem define_eq_ok {r : TypeRef} (h : (d.define t).1 = .ok r) :
    t.fault? = none ∧ r = (d.number t).1.toRef ∧ (d.number t).1.token.isDefinition = true ∧
      (d.define t).2.registry.types = Registry.insertSorted (d.number t).1 d.registry.types ∧
      ∀ x ∈ (d.number t).1.memberTokens, x ∉ d.inUse := by
  cases hfault : t.fault? with
  | some fault =>
    have hchecked : t.checked = .error fault := by rw [TypeDef.checked, hfault]
    simp only [define, hchecked] at h
    cases h
  | none =>
    have hcall : (d.call (.define t)).1 = .ok (.defined r) :=
      congrArg (Except.map Answer.defined) h
    obtain ⟨hanswer, hregistered⟩ := registered_of_call (numbered_of_fault? hfault) hcall
    exact ⟨rfl, Answer.defined.inj hanswer, hregistered⟩

/-! ### Next free rows -/

/-- The next free rows of methods and fields are rows of their tables, or lie just behind them. -/
structure InRange (d : Draft) : Prop where
  one_le_method : 1 ≤ d.nextMethod
  method_le : d.nextMethod ≤ 0x1000000
  one_le_field : 1 ≤ d.nextField
  field_le : d.nextField ≤ 0x1000000

theorem InRange.one_le_nextOf (h : d.InRange) (kind : MemberKind) : 1 ≤ d.nextOf kind := by
  cases kind with
  | method => exact h.one_le_method
  | field => exact h.one_le_field

theorem InRange.nextOf_le (h : d.InRange) (kind : MemberKind) : d.nextOf kind ≤ 0x1000000 := by
  cases kind with
  | method => exact h.method_le
  | field => exact h.field_le

theorem InRange.number (h : d.InRange) (t : TypeDef) : (d.number t).2.InRange where
  one_le_method := Nat.le_trans h.one_le_method (Rows.le_number ..)
  method_le := Rows.number_le _ h.method_le _
  one_le_field := Nat.le_trans h.one_le_field (Rows.le_number ..)
  field_le := Rows.number_le _ h.field_le _

theorem InRange.call (h : d.InRange) (c : Call) : (d.call c).2.InRange := by
  have hout := outcome d c
  generalize d.call c = o at hout
  cases hout with
  | malformed => exact h
  | linked => exact ⟨h.one_le_method, h.method_le, h.one_le_field, h.field_le⟩
  | refused t => exact h.number t
  | registered t d' _ done =>
    obtain ⟨-, registry, -, rfl⟩ := register_eq_ok_iff.mp done
    have hnumber := h.number t
    exact ⟨hnumber.one_le_method, hnumber.method_le, hnumber.one_le_field, hnumber.field_le⟩

theorem Reachable.inRange (h : d.Reachable) : d.InRange := by
  obtain ⟨name, framework, calls, rfl⟩ := h
  have hempty : (empty name framework).InRange := by
    constructor <;> simp [empty]
  exact run_induction (fun d c hd => hd.call c) hempty calls

def TakesNone (d : Draft) (c : Call) : Prop := ∀ t, c.numbered? = some t →
  Rows.TakesNone d.nextMethod (t.methods.map (·.token)) ∧
    Rows.TakesNone d.nextField (t.fields.map (·.token))

theorem number_snd_eq_iff_rows : (d.number t).2 = d ↔
    (d.number t).2.nextMethod = d.nextMethod ∧ (d.number t).2.nextField = d.nextField := by
  constructor
  · intro heq
    exact ⟨congrArg Draft.nextMethod heq, congrArg Draft.nextField heq⟩
  · rintro ⟨hmethod, hfield⟩
    show { d with
      nextMethod := (d.number t).2.nextMethod
      nextField := (d.number t).2.nextField } = d
    rw [hmethod, hfield]

theorem number_snd_eq_iff (h : d.InRange) : (d.number t).2 = d ↔
    Rows.TakesNone d.nextMethod (t.methods.map (·.token)) ∧
      Rows.TakesNone d.nextField (t.fields.map (·.token)) := by
  rw [number_snd_eq_iff_rows, ← Rows.number_snd_eq_iff Table.methodDef h.method_le,
    ← Rows.number_snd_eq_iff Table.field h.field_le]
  rfl

/-! ### Refused calls -/

/-- Whether no later calls tell two drafts apart, nor the modules that come of them. -/
def Alike (d d' : Draft) : Prop := ∀ calls, d.answers calls = d'.answers calls ∧
  ∀ w, (d.run calls).finish w = (d'.run calls).finish w

/-- A type with a free token is refused for a member only. -/
theorem add_fst_of_free (hdef : t.token.isDefinition = true) (hfree : d.registry.get? t.token = none) :
    (d.add t).1 = match (d.number t).1.memberTokens.find? (· ∈ d.inUse) with
      | some x => .error (.memberTokenInUse x t.name d.name)
      | none => .ok (d.number t).1 := by
  -- the token of the type stays as it is, so the type is registered unless a member is in the way
  have hnull : t.token ≠ .null := by
    intro h
    rw [h] at hdef
    exact absurd hdef (by decide)
  have htoken := token_number_of_ne_null (d := d) hnull
  obtain ⟨r, hr⟩ := Registry.exists_insert_eq_ok_iff (t := (d.number t).1).mpr
    ⟨htoken ▸ hdef, htoken ▸ hfree⟩
  cases hfind : (d.number t).1.memberTokens.find? (· ∈ d.inUse) with
  | some x =>
    have hreg : (d.number t).2.register (d.number t).1 =
        .error (.memberTokenInUse x t.name d.name) := by
      unfold register
      rw [number_snd, hfind]
      rfl
    simp only [add, hreg]
  | none =>
    have hfresh : ∀ x ∈ (d.number t).1.memberTokens, x ∉ d.inUse := by simpa using hfind
    obtain ⟨d', hreg⟩ : ∃ d', (d.number t).2.register (d.number t).1 = .ok d' :=
      ⟨_, register_eq_ok_iff.mpr ⟨hfresh, r, hr, rfl⟩⟩
    simp only [add, hreg]

/-- Adding a type with a free token and one member shows the token that the member gets. -/
theorem eq_of_add_eq {x y : Token} (hdef : t.token.isDefinition = true)
    (hfree : d.registry.get? t.token = none) (hregistry : d'.registry = d.registry)
    (hx : (d.number t).1.memberTokens = [x]) (hy : (d'.number t).1.memberTokens = [y])
    (h : (d'.add t).1 = (d.add t).1) : y = x := by
  rw [add_fst_of_free hdef hfree, add_fst_of_free hdef (hregistry ▸ hfree), hx, hy,
    List.find?_singleton, List.find?_singleton] at h
  by_cases hxu : x ∈ d.inUse <;> by_cases hyu : y ∈ d'.inUse <;> simp [hxu, hyu] at h
  · exact h.1
  · have htokens := congrArg TypeDef.memberTokens h
    rw [hx, hy] at htokens
    exact List.singleton_inj.mp htokens

theorem Alike.add_eq (h : Alike d' d) (t : TypeDef) : (d'.add t).1 = (d.add t).1 := by
  have hcall : (d'.call (.add t)).1 = (d.call (.add t)).1 := (List.cons_eq_cons.mp (h [.add t]).1).1
  simp only [call] at hcall
  cases h' : (d'.add t).1 <;> cases h : (d.add t).1 <;> rw [h', h] at hcall <;> cases hcall <;> rfl

def probe (token : Token) (methods : List Method) (fields : List Field) : TypeDef :=
  { TypeDef.ofClass ⟨"", "Probe"⟩ with token, methods, fields }

theorem memberTokens_number_probe_method (d : Draft) (token : Token) (name : String) :
    (d.number (probe token [.ofStatic name 0] [])).1.memberTokens =
      [.ofParts Table.methodDef d.nextMethod] := by
  rw [memberTokens_number]
  show (Rows.number Table.methodDef d.nextMethod [.null]).1 ++ [] = _
  rw [Rows.number_singleton_fst, Rows.fill_null, List.append_nil]

theorem memberTokens_number_probe_field (d : Draft) (token : Token) (name : String) :
    (d.number (probe token [] [.ofStatic name])).1.memberTokens =
      [.ofParts Table.field d.nextField] := by
  rw [memberTokens_number]
  show [] ++ (Rows.number Table.field d.nextField [.null]).1 = _
  rw [Rows.number_singleton_fst, Rows.fill_null, List.nil_append]

/-- As long as a type can be registered, rows that were handed out are missed sooner or later. -/
theorem Alike.number_snd_eq (hd : d.InRange) {token : Token} (hdef : token.isDefinition = true)
    (hfree : d.registry.get? token = none) (h : Alike (d.number t).2 d) : (d.number t).2 = d := by
  have hnumber := hd.number t
  -- a class with one method shows the next free row of methods, one with a field that of fields
  have hmethod : (d.number t).2.nextMethod = d.nextMethod := by
    have hadd := h.add_eq (probe token [.ofStatic "m" 0] [])
    have heq := eq_of_add_eq hdef hfree (number_registry d t)
      (memberTokens_number_probe_method ..) (memberTokens_number_probe_method ..) hadd
    exact Rows.ofParts_inj hnumber.one_le_method hnumber.method_le hd.one_le_method hd.method_le heq
  have hfield : (d.number t).2.nextField = d.nextField := by
    have hadd := h.add_eq (probe token [] [.ofStatic "f"])
    have heq := eq_of_add_eq hdef hfree (number_registry d t)
      (memberTokens_number_probe_field ..) (memberTokens_number_probe_field ..) hadd
    exact Rows.ofParts_inj hnumber.one_le_field hnumber.field_le hd.one_le_field hd.field_le heq
  exact number_snd_eq_iff_rows.mpr ⟨hmethod, hfield⟩

/-- A refused call leaves the module as it was, and everything that later calls depend on but the next
free rows of methods and fields, which it may take. It takes none exactly if the draft is as it was
before, and then only can no later call tell the difference, as long as a type can be registered. -/
theorem call_refused (hd : d.Reachable) {c : Call} {e : MetadataError}
    (h : (d.call c).1 = .error e) :
    (∃ nextMethod nextField, d.nextMethod ≤ nextMethod ∧ d.nextField ≤ nextField ∧
      (d.call c).2 = { d with nextMethod, nextField }) ∧
    (∀ w, (d.call c).2.finish w = d.finish w) ∧
    ((d.call c).2 = d ↔ TakesNone d c) ∧
    ((∃ token, token.isDefinition = true ∧ d.registry.get? token = none) →
      (Alike (d.call c).2 d ↔ TakesNone d c)) := by
  have hrange := hd.inRange
  have hout := outcome d c
  generalize d.call c = o at hout h
  cases hout with
  | linked => cases h
  | registered => cases h
  | malformed _ hnum =>
    have hnone : TakesNone d c := by
      intro t ht
      rw [hnum] at ht
      cases ht
    refine ⟨⟨d.nextMethod, d.nextField, Nat.le_refl _, Nat.le_refl _, rfl⟩, fun w => rfl, ?_, fun _ => ?_⟩
    · exact iff_of_true rfl hnone
    · exact iff_of_true (fun calls => ⟨rfl, fun w => rfl⟩) hnone
  | refused t _ hnum =>
    have hnone : TakesNone d c ↔ (d.number t).2 = d := by
      rw [number_snd_eq_iff hrange, TakesNone, hnum]
      simp
    refine ⟨⟨_, _, Rows.le_number .., Rows.le_number .., number_snd d t⟩, fun w => rfl, hnone.symm, ?_⟩
    rintro ⟨token, hdef, hfree⟩
    rw [hnone]
    constructor
    · intro halike
      exact halike.number_snd_eq hrange hdef hfree
    · intro heq
      show Alike (d.number t).2 d
      rw [heq]
      exact fun calls => ⟨rfl, fun w => rfl⟩

/-- A draft with one type, which has no members. -/
def single : Draft := (empty "Acme.dll" .v4_0).run [.add (probe (.typeDef 1) [] [])]

/-- A definition of another type under the same token, with a method that lacks a token. -/
def again : Call := .define (probe (.typeDef 1) [.ofStatic "m" 0] [])

theorem single_call_again :
    single.call again = (.error (.typeTokenInUse (.typeDef 1)), { single with nextMethod := 2 }) := rfl

theorem call_refused_single : single.Reachable ∧
    (single.call again).1 = .error (.typeTokenInUse (.typeDef 1)) ∧
    (∀ w, (single.call again).2.finish w = single.finish w) ∧ ¬Alike (single.call again).2 single := by
  have hreach : single.Reachable := ⟨_, _, _, rfl⟩
  have herror := congrArg Prod.fst single_call_again
  obtain ⟨-, hfinish, -, halike⟩ := call_refused hreach herror
  have hroom : ∃ token, token.isDefinition = true ∧ single.registry.get? token = none :=
    ⟨.typeDef 2, by decide, by decide⟩
  refine ⟨hreach, herror, hfinish, fun h => ?_⟩
  have hnone := (halike hroom).mp h _ rfl
  exact absurd (hnone.1 .null (by decide)).1 (by decide)

/-- The method of a type that is added next gets another token than without the refused definition. -/
theorem add_ne_of_call_again : single.Reachable ∧
    (single.call again).1 = .error (.typeTokenInUse (.typeDef 1)) ∧ (single.call again).2 ≠ single ∧
    (single.add (probe .null [.ofStatic "n" 0] [])).1.map (·.memberTokens) = .ok [.methodDef 1] ∧
    ((single.call again).2.add (probe .null [.ofStatic "n" 0] [])).1.map (·.memberTokens) =
      .ok [.methodDef 2] := by
  refine ⟨⟨_, _, _, rfl⟩, rfl, fun h => ?_, rfl, rfl⟩
  exact absurd (congrArg Draft.nextMethod h) (by decide)

end Draft

end ModuleAudit
