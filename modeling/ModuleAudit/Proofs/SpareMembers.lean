import Mathlib.Data.List.Forall2
import ModuleAudit.Proofs.BaseChain

/-!
# Members that do not matter

What a type could do without instances is decided by its name, its base, and the members that may need
an instance. All else can differ: other members may be there or not, at any place, and flags,
attributes, enclosing types and the names of members may be any. Two worlds that differ in such things
only classify all their types alike.

## Main definitions

* `EqualUpTo`: two lists are the same up to spare elements on either side.
* `Method.Spare`, `Field.Spare`: members that need no instance.
* `Method.Alike`, `Field.Alike`: members that play the same part.
* `TypeDef.Alike`, `World.Alike`: types and worlds that differ in what does not matter.

## Main statements

* `EqualUpTo.find?_map`: a search that passes over the spare elements finds the same on both sides.
* `TypeDef.Alike.instanceMember?`: types that are alike have the same first member that needs an
  instance.
* `World.Alike.resolve`: references lead to types that are alike, with the same owner.
* `World.map_classify_of_alike`: all types of all registries are classified alike.
-/

namespace ModuleAudit

/-! ### Lists up to spare elements -/

/-- Two lists are the same up to spare elements, which may stand anywhere in either of them. The other
elements correspond to each other in order. -/
inductive EqualUpTo {β : Type} (Spare : β → Prop) (Same : β → β → Prop) : List β → List β → Prop
  | nil : EqualUpTo Spare Same [] []
  | left {x : β} {l l' : List β} (spare : Spare x) (rest : EqualUpTo Spare Same l l') :
      EqualUpTo Spare Same (x :: l) l'
  | right {x : β} {l l' : List β} (spare : Spare x) (rest : EqualUpTo Spare Same l l') :
      EqualUpTo Spare Same l (x :: l')
  | both {x y : β} {l l' : List β} (same : Same x y) (rest : EqualUpTo Spare Same l l') :
      EqualUpTo Spare Same (x :: l) (y :: l')

namespace EqualUpTo

variable {β γ : Type} {Spare : β → Prop} {Same : β → β → Prop} {l l' : List β}

/-- A search that passes over the spare elements finds the same on both sides. -/
theorem find?_map {p : β → Bool} {g : β → γ} (hspare : ∀ x, Spare x → p x = false)
    (hsame : ∀ x y, Same x y → p y = p x ∧ g y = g x) (h : EqualUpTo Spare Same l l') :
    (l'.find? p).map g = (l.find? p).map g := by
  induction h with
  | nil => rfl
  | left spare _ ih =>
    rw [List.find?_cons_of_neg (by simp [hspare _ spare])]
    exact ih
  | right spare _ ih =>
    rw [List.find?_cons_of_neg (by simp [hspare _ spare])]
    exact ih
  | @both x y l l' same _ ih =>
    obtain ⟨hp, hg⟩ := hsame x y same
    rw [List.find?_cons, List.find?_cons, hp]
    cases p x with
    | true => exact congrArg some hg
    | false => exact ih

end EqualUpTo

/-! ### Members -/

/-- A method that needs no instance: static, or a constructor that compilers add. -/
def Method.Spare (m : Method) : Prop := m.isStatic = true ∨ m.isConstructor = true ∧ m.arity ≤ 1

/-- The same method as far as instances are concerned. Its name may differ, but not so that only one of
the two is a constructor. -/
structure Method.Alike (m m' : Method) : Prop where
  token : m'.token = m.token
  isConstructor : m'.isConstructor = m.isConstructor
  isStatic : m'.isStatic = m.isStatic
  arity : m'.arity = m.arity

def Field.Spare (f : Field) : Prop := f.isStatic = true

structure Field.Alike (f f' : Field) : Prop where
  token : f'.token = f.token
  isStatic : f'.isStatic = f.isStatic

namespace Method

theorem Spare.isInstanceCtor {m : Method} (h : m.Spare) : m.isInstanceCtor = false := by
  unfold Method.isInstanceCtor toleratedCtorArity
  rcases h with hstatic | ⟨-, harity⟩
  · simp [hstatic]
  · simp [Nat.not_lt.mpr harity]

theorem Spare.isInstanceMethod {m : Method} (h : m.Spare) : m.isInstanceMethod = false := by
  unfold Method.isInstanceMethod
  rcases h with hstatic | ⟨hctor, -⟩
  · simp [hstatic]
  · simp [hctor]

theorem Alike.isInstanceCtor {m m' : Method} (h : m.Alike m') :
    m'.isInstanceCtor = m.isInstanceCtor := by
  rw [Method.isInstanceCtor, Method.isInstanceCtor, h.isConstructor, h.isStatic, h.arity]

theorem Alike.isInstanceMethod {m m' : Method} (h : m.Alike m') :
    m'.isInstanceMethod = m.isInstanceMethod := by
  rw [Method.isInstanceMethod, Method.isInstanceMethod, h.isConstructor, h.isStatic]

end Method

/-! ### Types -/

/-- Types that differ in what does not matter: in members that need no instance, in the names of the
others, and in flags, attributes and enclosing types. -/
structure TypeDef.Alike (t t' : TypeDef) : Prop where
  token : t'.token = t.token
  name : t'.name = t.name
  base : t'.base = t.base
  methods : EqualUpTo Method.Spare Method.Alike t.methods t'.methods
  fields : EqualUpTo Field.Spare Field.Alike t.fields t'.fields

namespace TypeDef

variable {t t' : TypeDef}

theorem Alike.fullName (h : t.Alike t') : t'.fullName = t.fullName := congrArg TypeName.text h.name

/-- The three searches of `instanceMember?` as one. -/
theorem instanceMember?_eq_or (t : TypeDef) : t.instanceMember? =
    ((t.methods.find? (·.isInstanceCtor)).map fun m => (m.token, .constructor)).or
      (((t.methods.find? (·.isInstanceMethod)).map fun m => (m.token, .method)).or
        ((t.fields.find? (!·.isStatic)).map fun f => (f.token, .field))) := by
  unfold instanceMember?
  cases t.methods.find? (·.isInstanceCtor) with
  | some m => rfl
  | none =>
    cases t.methods.find? (·.isInstanceMethod) with
    | some m => rfl
    | none => cases t.fields.find? (!·.isStatic) <;> rfl

theorem Alike.instanceMember? (h : t.Alike t') : t'.instanceMember? = t.instanceMember? := by
  have hctor := h.methods.find?_map (g := fun m => (m.token, InstanceKind.constructor))
    (fun m => Method.Spare.isInstanceCtor)
    fun m m' hm => ⟨hm.isInstanceCtor, congrArg (·, _) hm.token⟩
  have hmethod := h.methods.find?_map (g := fun m => (m.token, InstanceKind.method))
    (fun m => Method.Spare.isInstanceMethod)
    fun m m' hm => ⟨hm.isInstanceMethod, congrArg (·, _) hm.token⟩
  have hfield := h.fields.find?_map (p := (!·.isStatic))
    (g := fun f => (f.token, InstanceKind.field)) (fun f hf => by simp [show f.isStatic = true from hf])
    fun f f' hf => ⟨congrArg (!·) hf.isStatic, congrArg (·, _) hf.token⟩
  rw [instanceMember?_eq_or, instanceMember?_eq_or, hctor, hmethod, hfield]

end TypeDef

/-! ### Worlds -/

/-- Worlds with the same links, in which the types of each registry correspond to types that are
alike. -/
structure World.Alike (w w' : World) : Prop where
  types : ∀ home, List.Forall₂ TypeDef.Alike (w.types home) (w'.types home)
  links : ∀ home assembly, w'.link? home assembly = w.link? home assembly

theorem forall₂_find? {β : Type} {R : β → β → Prop} {p : β → Bool} {l l' : List β}
    (hp : ∀ x y, R x y → p y = p x) (h : List.Forall₂ R l l') :
    Option.Rel R (l.find? p) (l'.find? p) := by
  induction h with
  | nil => exact .none
  | @cons x y l l' hxy _ ih =>
    rw [List.find?_cons, List.find?_cons, hp x y hxy]
    cases p x with
    | true => exact .some hxy
    | false => exact ih

namespace World

variable {w w' : World}

namespace Alike

theorem get? (h : w.Alike w') (home : RegistryId) (token : Token) :
    Option.Rel TypeDef.Alike (w.get? home token) (w'.get? home token) := by
  rw [get?_eq_find?, get?_eq_find?]
  exact forall₂_find? (fun t t' ht => by rw [ht.token]) (h.types home)

theorem findByName? (h : w.Alike w') (home : RegistryId) (fullName : String) :
    Option.Rel TypeDef.Alike (w.findByName? home fullName) (w'.findByName? home fullName) := by
  rw [findByName?_eq_find?, findByName?_eq_find?]
  exact forall₂_find? (fun t t' ht => by rw [ht.fullName]) (h.types home)

/-- References lead to types that are alike, with the same owner. -/
theorem resolve (h : w.Alike w') (home : RegistryId) (base : TypeRef) :
    Option.Rel (fun x y => x.1.Alike y.1 ∧ y.2 = x.2) (w.resolve home base) (w'.resolve home base) := by
  have howner : ∀ {a b : Option TypeDef} (owner : Option RegistryId), Option.Rel TypeDef.Alike a b →
      Option.Rel (fun x y => x.1.Alike y.1 ∧ y.2 = x.2) (a.map (·, owner)) (b.map (·, owner)) := by
    intro a b owner hab
    cases hab with
    | none => exact .none
    | some ht => exact .some ⟨ht, rfl⟩
  unfold World.resolve
  split
  · exact howner none (h.get? home base.token)
  · split
    · cases base.scope with
      | none => exact .none
      | some scope =>
        simp only [Option.bind_eq_bind, Option.bind_some, h.links]
        cases w.link? home scope with
        | none => exact .none
        | some owner =>
          simp only [Option.bind_some]
          have hfind := h.findByName? owner base.name.text
          generalize w.findByName? owner base.name.text = found at hfind ⊢
          generalize w'.findByName? owner base.name.text = found' at hfind ⊢
          cases hfind with
          | none => exact .none
          | some ht => exact .some ⟨ht, rfl⟩
    · split
      · exact howner none (h.findByName? home base.name.text)
      · exact .none

end Alike

end World

namespace BaseChain

variable {w w' : World} {s s' : Stage}

/-- Stages in the same registry, with types that are alike. -/
structure Stage.Alike (s s' : Stage) : Prop where
  home : s'.home = s.home
  type : s.type.Alike s'.type

theorem Stage.Alike.key (h : s.Alike s') : s.key = s'.key := by
  rw [Stage.key, Stage.key, h.home, h.type.token]

/-- A step reads the token, the base and the first member that needs an instance, and nothing else of
the type that it is at. -/
theorem step_agree (hw : w.Alike w') (hs : s.Alike s') :
    Walk.StepsAgree Stage.Alike (step w s) (step w' s') := by
  unfold step
  rw [hs.type.instanceMember?, hs.type.base, hs.type.token, hs.home]
  cases s.type.instanceMember? with
  | some found => exact .answer _
  | none =>
    cases s.type.base with
    | none => exact .answer _
    | some base =>
      simp only
      split
      · exact .answer _
      · have hresolve := hw.resolve s.home base
        generalize w.resolve s.home base = found at hresolve ⊢
        generalize w'.resolve s.home base = found' at hresolve ⊢
        cases hresolve with
        | none => exact .answer _
        | some halike => exact .move ⟨congrArg (·.getD s.home) halike.2, halike.1⟩

end BaseChain

namespace World

open BaseChain

variable {w w' : World} {home : RegistryId} {t t' : TypeDef}

theorem Alike.classify (hw : w.Alike w') (ht : t.Alike t') :
    w'.classify home t' = w.classify home t := by
  have hstart : Stage.Alike ⟨home, t⟩ ⟨home, t'⟩ := ⟨rfl, ht⟩
  have hagree : Walk.EndingsAgree Stage.Alike ((walk w).run ⟨home, t⟩) ((walk w').run ⟨home, t'⟩) :=
    Walk.run_agree (fun _ _ hs => hs.key) (fun _ _ hs => step_agree hw hs) hstart
  exact classify_eq_of_agree (fun _ _ hs => hs.type.token) hagree

/-- Only members that may need an instance matter. If two worlds have the same links, and types of the
same tokens, names and bases, with the same members up to those that need no instance and up to the
names of members, then each registry holds types of the same tokens in both worlds, and each of them is
classified alike: with the same type, member, kind, base or token in the verdict. -/
theorem map_classify_of_alike (h : w.Alike w') (home : RegistryId) :
    (w'.types home).map (fun t => (t.token, w'.classify home t)) =
      (w.types home).map fun t => (t.token, w.classify home t) := by
  have htypes := h.types home
  generalize w.types home = types at htypes ⊢
  generalize w'.types home = types' at htypes ⊢
  induction htypes with
  | nil => rfl
  | cons ht _ ih =>
    rw [List.map_cons, List.map_cons, ih, ht.token, h.classify ht]

/-- A program over a tool of a library that is run on instances. -/
def toolWorld : World :=
  ⟨[{ types := [⟨.typeDef 1, ⟨"App", "Main"⟩, 0, some (.toScope (.typeRef 1) "lib" ⟨"Lib", "Tool"⟩),
        none, [], [.ofStatic "main" 1], []⟩]
      links := [("lib", 1)], sorted := by decide, valid := by decide },
    { types := [⟨.typeDef 1, ⟨"Lib", "Tool"⟩, 0, some .object, none, [],
        [.ctor 0, { Method.ofInstance "run" 0 with token := .methodDef 7 }], [.ofStatic "count"]⟩]
      links := [], sorted := by decide, valid := by decide }]⟩

/-- The same program and the same tool under another coat: other members around the one that needs an
instance, which has another name, and other flags, attributes and enclosing types. -/
def coatedWorld : World :=
  ⟨[{ types := [⟨.typeDef 1, ⟨"App", "Main"⟩, TypeFlags.visible,
        some (.toScope (.typeRef 1) "lib" ⟨"Lib", "Tool"⟩), some (.typeDef 9),
        [WellKnown.generatedCode], [{ Method.cctor with arity := 3 }], [.ofConstant "version"]⟩]
      links := [("lib", 1)], sorted := by decide, valid := by decide },
    { types := [⟨.typeDef 1, ⟨"Lib", "Tool"⟩, TypeFlags.sealed, some .object, none, [],
        [.ofStatic "help" 2, { Method.ofInstance "walk" 0 with token := .methodDef 7 }, .ctor 1], []⟩]
      links := [], sorted := by decide, valid := by decide }]⟩

theorem map_classify_of_alike_coated : toolWorld.Alike coatedWorld ∧
    (coatedWorld.types 0).map (fun t => (t.token, coatedWorld.classify 0 t)) =
      [(.typeDef 1, .instanceMember (.typeDef 1) (.methodDef 7) .method)] := by
  have halike : toolWorld.Alike coatedWorld := by
    refine ⟨fun home => ?_, fun home assembly => ?_⟩ <;> rcases home with _ | _ | home
    · refine .cons ⟨rfl, rfl, rfl, ?_, ?_⟩ .nil
      · exact .left (.inl rfl) (.right (.inl rfl) .nil)
      · exact .right rfl .nil
    · refine .cons ⟨rfl, rfl, rfl, ?_, ?_⟩ .nil
      · exact .left (.inr ⟨rfl, by decide⟩) <| .right (.inl rfl) <|
          .both ⟨rfl, rfl, rfl, rfl⟩ <| .right (.inr ⟨rfl, by decide⟩) .nil
      · exact .left rfl .nil
    · exact .nil
    · rfl
    · rfl
    · rfl
  refine ⟨halike, ?_⟩
  rw [map_classify_of_alike halike 0]
  decide +kernel

end World

end ModuleAudit
