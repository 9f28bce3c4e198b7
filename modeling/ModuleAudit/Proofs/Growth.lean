import Mathlib.Logic.Relation
import ModuleAudit.Proofs.BaseChain

/-!
# Worlds that grow

More types are registered, more assemblies are linked, more registries come in. A type may hide
behind another one of its full name, and a link never replaces another one; so every reference that
led to a definition leads to it for ever, and a verdict on a type can only change where it was that a
base is missing.

## Main definitions

* `Registry.Extends`, `World.Extends`: whatever can be looked up is found again, and the same.
* `World.Grows`: the steps by which a world grows without disturbing what it holds.

## Main statements

* `World.Grows.extends`: growing disturbs no lookup.
* `World.classify_of_steps`: a verdict stands where each step of the way up to it does.
* `World.classify_of_grows`: however a world grows, a verdict stands unless a base that was missing is
  there now.
-/

namespace ModuleAudit

/-- The type has its full name to itself, or stands behind another type that has it too. -/
def TypeDef.YieldsTo (t : TypeDef) (types : List TypeDef) : Prop :=
  (∀ u ∈ types, u.fullName ≠ t.fullName) ∨ ∃ u ∈ types, u.fullName = t.fullName ∧ u.token < t.token

namespace Registry

/-- Whatever one registry finds, the other one finds too. -/
structure Extends (r r' : Registry) : Prop where
  ofToken : ∀ token t, r.get? token = some t → r'.get? token = some t
  ofName : ∀ name t, r.findByName? name = some t → r'.findByName? name = some t
  ofAssembly : ∀ assembly target, r.link? assembly = some target → r'.link? assembly = some target

theorem Extends.refl (r : Registry) : r.Extends r := ⟨fun _ _ h => h, fun _ _ h => h, fun _ _ h => h⟩

theorem Extends.trans {r s t : Registry} (h : r.Extends s) (h' : s.Extends t) : r.Extends t where
  ofToken token u hu := h'.ofToken token u (h.ofToken token u hu)
  ofName name u hu := h'.ofName name u (h.ofName name u hu)
  ofAssembly assembly target hlink := h'.ofAssembly assembly target (h.ofAssembly assembly target hlink)

theorem Extends.of_insert {r r' : Registry} {t : TypeDef} (h : r.insert t = .ok r')
    (hname : t.YieldsTo r.types) : r.Extends r' := by
  obtain ⟨-, -, -, hlinks, -⟩ := insert_eq_ok_iff.mp h
  have hmem : ∀ u, u ∈ r'.types ↔ u = t ∨ u ∈ r.types := fun u => mem_types_of_insert h
  refine ⟨fun token u hu => ?_, fun name u hu => ?_, fun assembly target hlink => ?_⟩
  · obtain ⟨hu, htoken⟩ := get?_eq_some_iff.mp hu
    exact get?_eq_some_iff.mpr ⟨(hmem u).mpr (.inr hu), htoken⟩
  · obtain ⟨hu, hun, hleast⟩ := findByName?_eq_some_iff.mp hu
    refine findByName?_eq_some_iff.mpr ⟨(hmem u).mpr (.inr hu), hun, fun v hv hvn => ?_⟩
    rcases (hmem v).mp hv with rfl | hv
    · -- the new type stands behind one of its name, and that one behind `u`
      rcases hname with hnone | ⟨x, hx, hxn, hlt⟩
      · exact absurd (hun.trans hvn.symm) (hnone u hu)
      · exact Token.le_of_lt (Token.lt_of_le_of_lt (hleast x hx (hxn.trans hvn)) hlt)
    · exact hleast v hv hvn
  · rw [link?, hlinks]
    exact hlink

theorem Extends.of_link {r : Registry} {assembly : String} {target : RegistryId}
    (h : r.link? assembly = none) : r.Extends (r.link assembly target) := by
  refine ⟨fun _ _ hu => hu, fun _ _ hu => hu, fun other found hfound => ?_⟩
  have hne : other ≠ assembly := by
    rintro rfl
    rw [h] at hfound
    cases hfound
  rw [link?_link_of_ne _ _ hne]
  exact hfound

end Registry

namespace World

open BaseChain

variable {w w' : World} {id home : RegistryId} {t : TypeDef}

/-- Every registry is still there, and finds whatever it found. -/
def Extends (w w' : World) : Prop :=
  ∀ id r, w.registry? id = some r → ∃ r', World.registry? w' id = some r' ∧ r.Extends r'

theorem Extends.refl (w : World) : w.Extends w := fun _ r h => ⟨r, h, .refl r⟩

theorem Extends.trans {w₁ w₂ w₃ : World} (h : w₁.Extends w₂) (h' : w₂.Extends w₃) :
    w₁.Extends w₃ := by
  intro id r hr
  obtain ⟨r₂, hr₂, hext⟩ := h id r hr
  obtain ⟨r₃, hr₃, hext'⟩ := h' id r₂ hr₂
  exact ⟨r₃, hr₃, hext.trans hext'⟩

theorem Extends.of_set {r r' : Registry} (hr : w.registry? id = some r) (h : r.Extends r') :
    w.Extends (w.set id r') := by
  intro other s hs
  by_cases hid : id = other
  · subst hid
    rw [hr] at hs
    cases hs
    exact ⟨r', registry?_set_self hr r', h⟩
  · exact ⟨s, (registry?_set_of_ne w hid r').trans hs, .refl s⟩

theorem Extends.get? {token : Token} (h : w.Extends w') (hget : w.get? id token = some t) :
    w'.get? id token = some t := by
  obtain ⟨r, hr, hget⟩ := Option.bind_eq_some_iff.mp hget
  obtain ⟨r', hr', hext⟩ := h id r hr
  exact Option.bind_eq_some_iff.mpr ⟨r', hr', hext.ofToken token t hget⟩

theorem Extends.findByName? {name : String} (h : w.Extends w')
    (hfind : w.findByName? id name = some t) : w'.findByName? id name = some t := by
  obtain ⟨r, hr, hfind⟩ := Option.bind_eq_some_iff.mp hfind
  obtain ⟨r', hr', hext⟩ := h id r hr
  exact Option.bind_eq_some_iff.mpr ⟨r', hr', hext.ofName name t hfind⟩

theorem Extends.link? {assembly : String} {target : RegistryId} (h : w.Extends w')
    (hlink : w.link? id assembly = some target) : w'.link? id assembly = some target := by
  obtain ⟨r, hr, hlink⟩ := Option.bind_eq_some_iff.mp hlink
  obtain ⟨r', hr', hext⟩ := h id r hr
  exact Option.bind_eq_some_iff.mpr ⟨r', hr', hext.ofAssembly assembly target hlink⟩

/-- A reference that leads to a definition still leads there. -/
theorem Extends.resolve {base : TypeRef} {x : TypeDef × Option RegistryId} (h : w.Extends w')
    (hresolve : w.resolve id base = some x) : w'.resolve id base = some x := by
  obtain ⟨t, owner⟩ := x
  rw [resolve_eq_some_iff] at hresolve ⊢
  rcases hresolve with ⟨htable, hget, howner⟩ |
    ⟨htable, scope, target, hscope, hlink, hfind, howner⟩ | ⟨htable, hfind, howner⟩
  · exact .inl ⟨htable, h.get? hget, howner⟩
  · exact .inr (.inl ⟨htable, scope, target, hscope, h.link? hlink, h.findByName? hfind, howner⟩)
  · exact .inr (.inr ⟨htable, h.findByName? hfind, howner⟩)

/-! ### Steps of growth -/

/-- One step by which a world grows: a type is registered that does not come before another one of its
full name, an assembly is linked that was not linked before, or a registry comes in. -/
inductive Grows (w : World) : World → Prop
  | insert {id : RegistryId} {t : TypeDef} {w' : World} (yields : t.YieldsTo (w.types id))
      (registered : w.insert id t = .ok w') : Grows w w'
  | link {id : RegistryId} {assembly : String} {target : RegistryId}
      (unlinked : w.link? id assembly = none) : Grows w (w.link id assembly target)
  | add (r : Registry) : Grows w (w.add r).2

theorem Grows.extends (h : w.Grows w') : w.Extends w' := by
  cases h with
  | @insert id t _ yields registered =>
    rcases insert_eq_ok_iff.mp registered with ⟨-, rfl⟩ | ⟨r, r', hr, hinsert, rfl⟩
    · exact .refl _
    · rw [types_eq_of_lookup hr] at yields
      exact .of_set hr (.of_insert hinsert yields)
  | @link id assembly target unlinked =>
    unfold World.link
    cases hr : w.registry? id with
    | none => exact .refl w
    | some r =>
      rw [World.link?, hr] at unlinked
      exact .of_set hr (.of_link unlinked)
  | add r =>
    exact fun id s hs => ⟨s, registry?_add_of_lookup hs r, .refl s⟩

theorem extends_of_grows (h : Relation.ReflTransGen Grows w w') : w.Extends w' := by
  induction h with
  | refl => exact .refl w
  | tail _ hstep ih => exact ih.trans hstep.extends

/-! ### Verdicts -/

/-- A step of the way up stays as it is, unless a base is there now that was missing. -/
theorem step_of_extends {s : Stage} (h : w.Extends w')
    (hmissing : ∀ base, step w s = .answer (.unclassifiable (.unresolvedBase base)) →
      w'.resolve s.home base = none) : step w' s = step w s := by
  cases hstep : step w s with
  | answer c =>
    cases step_eq_answer_iff.mp hstep with
    | instanceMember hmember => exact (Verdict.instanceMember hmember).step
    | noBase hclean hbase => exact (Verdict.noBase hclean hbase).step
    | allStatic hclean hbase hroot => exact (Verdict.allStatic hclean hbase hroot).step
    | unresolvedBase hclean hbase hroot hnone =>
      exact (Verdict.unresolvedBase hclean hbase hroot (hmissing _ hstep)).step
  | move r =>
    obtain ⟨hclean, hnext⟩ := step_eq_move_iff.mp hstep
    obtain ⟨base, u, owner, hbase, hroot, hresolve, rfl⟩ := next?_eq_some_iff.mp hnext
    exact step_eq_move_iff.mpr
      ⟨hclean, next?_eq_some_iff.mpr ⟨base, u, owner, hbase, hroot, h.resolve hresolve, rfl⟩⟩

/-- Where all steps of a way up stay as they are, so does the verdict. -/
theorem classify_of_steps
    (h : ∀ n s, (walk w).Moves n ⟨home, t⟩ s → step w' s = step w s) :
    w'.classify home t = w.classify home t := by
  have hagree : Walk.EndingsAgree (fun s s' => s' = s ∧ ∃ n, (walk w).Moves n ⟨home, t⟩ s)
      ((walk w).run ⟨home, t⟩) ((walk w').run ⟨home, t⟩) := by
    refine Walk.run_agree ?_ ?_ ⟨rfl, 0, .zero _⟩
    · rintro _ s ⟨rfl, -⟩
      rfl
    · rintro _ s ⟨rfl, n, hmoves⟩
      have hsame : (walk w').step s = (walk w).step s := h n s hmoves
      rw [hsame]
      cases hstep : (walk w).step s with
      | answer c => exact .answer c
      | move r => exact .move ⟨rfl, n + 1, hmoves.snoc hstep⟩
  exact classify_eq_of_agree (fun _ _ related => by rw [related.1]) hagree

/-- Where a stage of the way up answers, the verdict on a registered type is its answer. -/
theorem classify_of_moves {n : Nat} {s : Stage} {c : Classification} (ht : t ∈ w.types home)
    (hmoves : (walk w).Moves n ⟨home, t⟩ s) (hanswer : step w s = .answer c) :
    w.classify home t = c :=
  classify_of_answered ((Walk.run_eq_answered_iff
    (faithful_walk (.inr (get?_eq_some_iff.mpr ⟨ht, rfl⟩)))).mpr ⟨n, s, hmoves, hanswer⟩)

/-- An unresolved base is that of the stage at which the way up stops. -/
theorem exists_stop_of_unresolved {base : TypeRef}
    (h : w.classify home t = .unclassifiable (.unresolvedBase base)) :
    ∃ n s, (walk w).Moves n ⟨home, t⟩ s ∧
      step w s = .answer (.unclassifiable (.unresolvedBase base)) := by
  have hend := Walk.endsWith_run (walk w) ⟨home, t⟩
  cases hrun : (walk w).run ⟨home, t⟩ with
  | answered c =>
    rw [classify_of_answered hrun] at h
    rw [hrun, h] at hend
    exact hend
  | repeated s =>
    rw [classify_of_repeated hrun] at h
    cases h

theorem firstDecision_of_moves {n : Nat} {s r : Stage} {c : Classification}
    (hmoves : (walk w).Moves n s r) (hanswer : step w r = .answer c) : FirstDecision w s n r := by
  obtain ⟨hstage, hbefore⟩ := moves_iff.mp hmoves
  refine ⟨hstage, Classical.not_not.mp fun hgo => ?_, hbefore⟩
  obtain ⟨q, hstep⟩ := not_decides_iff.mp hgo
  rw [hanswer] at hstep
  cases hstep

/-- When a world grows by any number of steps, the verdict on a registered type stands. Only where it
was that a base is missing can it change, and only if this base is found now in the registry where
the way up had stopped. -/
theorem classify_of_grows (ht : t ∈ w.types home) (h : Relation.ReflTransGen Grows w w') :
    ((∀ base, w.classify home t ≠ .unclassifiable (.unresolvedBase base)) →
      w'.classify home t = w.classify home t) ∧
    ∀ base, w.classify home t = .unclassifiable (.unresolvedBase base) →
      ∃ n s, FirstDecision w ⟨home, t⟩ n s ∧ s.type.base = some base ∧
        w.resolve s.home base = none ∧
        (w'.classify home t = w.classify home t ∨ ∃ x, w'.resolve s.home base = some x) := by
  have hext := extends_of_grows h
  constructor
  · intro hsettled
    refine classify_of_steps fun n s hmoves => step_of_extends hext fun base hanswer => ?_
    exact absurd (classify_of_moves ht hmoves hanswer) (hsettled base)
  · intro base hmissing
    obtain ⟨n, s, hmoves, hanswer⟩ := exists_stop_of_unresolved hmissing
    cases step_eq_answer_iff.mp hanswer with
    | unresolvedBase hclean hbase hroot hnone =>
      refine ⟨n, s, firstDecision_of_moves hmoves hanswer, hbase, hnone, ?_⟩
      cases hfound : w'.resolve s.home base with
      | some x => exact .inr ⟨x, rfl⟩
      | none =>
        -- the way up stops at this stage only
        refine .inl (classify_of_steps fun m r hr => step_of_extends hext fun other hother => ?_)
        obtain rfl := hmoves.answering_unique hanswer hr hother
        rw [hanswer] at hother
        cases hother
        exact hfound

/-- The two registries of `linked` before any of them knows the other one. -/
def apart : World :=
  ⟨[{ linkedApp with links := [] }, { linkedLib with links := [] }]⟩

/-- A type that shares its full name with the first one of the application, but comes behind it. -/
def double : TypeDef := { linkedApp.types[0] with token := .typeDef 4, base := none }

/-- The application gets the double and finds the library, which still does not find it. -/
def joined : World := ((apart.insert 0 double).toOption.getD apart).link 0 "lib" 1

theorem grows_apart : Relation.ReflTransGen Grows apart joined := by
  have hinsert : apart.insert 0 double = .ok ((apart.insert 0 double).toOption.getD apart) := rfl
  refine .tail (.single (.insert ?_ hinsert)) (.link ?_)
  · exact .inr ⟨linkedApp.types[0], by decide, by decide, by decide⟩
  · decide

theorem classify_joined :
    (linkedApp.types[1] ∈ apart.types 0 ∧ Relation.ReflTransGen Grows apart joined ∧
      joined.classify 0 linkedApp.types[1] = .allStatic) ∧
    (linkedLib.types[0] ∈ apart.types 1 ∧ joined.classify 1 linkedLib.types[0] =
      .unclassifiable (.unresolvedBase (.toScope (.typeRef 1) "app" ⟨"App", "Root"⟩))) := by
  have happ : apart.classify 0 linkedApp.types[1] = .allStatic := by decide +kernel
  have hlib : apart.classify 1 linkedLib.types[0] =
      .unclassifiable (.unresolvedBase (.toScope (.typeRef 1) "app" ⟨"App", "Root"⟩)) := by
    decide +kernel
  refine ⟨⟨by decide, grows_apart, ?_⟩, by decide, ?_⟩
  · rw [(classify_of_grows (by decide) grows_apart).1 (by rw [happ]; nofun), happ]
  · obtain ⟨n, s, hfirst, hbase, -, hclassify⟩ :=
      (classify_of_grows (by decide) grows_apart).2 _ hlib
    have hstart : Decides apart ⟨1, linkedLib.types[0]⟩ := .inr (.inr ⟨_, rfl, .inr (by decide)⟩)
    cases n with
    | succ n => exact absurd hstart (hfirst.before 0 (Nat.succ_pos n) _ rfl)
    | zero =>
      cases hfirst.stage
      rcases hclassify with heq | ⟨x, hfound⟩
      · rw [heq, hlib]
      · cases hbase
        have hnone : joined.resolve 1 (.toScope (.typeRef 1) "app" ⟨"App", "Root"⟩) = none := by
          decide
        rw [hnone] at hfound
        cases hfound

end World

end ModuleAudit
