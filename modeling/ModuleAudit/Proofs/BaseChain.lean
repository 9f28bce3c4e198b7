import ModuleAudit.Classification
import ModuleAudit.Proofs.Walk

/-!
# Classification and the chain of bases

The bases of a type form a chain of stages, each a type together with the registry that owns it. The
chain is said here without the walk that follows it: it may be endless, and it goes on past types
whose members need an instance. The verdict on a type is that of the first stage which decides; where
none does, the chain comes back to a stage, and the verdict is a cycle.

## Main definitions

* `TypeDef.Clean`, `TypeDef.FirstOffence`: no member needs an instance, or this is the first that does.
* `BaseChain.next?`, `BaseChain.stage?`: the next stage of a chain, and the stage after so many.
* `BaseChain.Decides`, `BaseChain.Verdict`: whether a stage ends the chain, and what it says then.
* `BaseChain.ReachesRoot`: the chain ends at the root, by way of clean types only.

## Main statements

* `World.classify_chain`: a classification is the verdict of the first stage that decides, or a cycle.
* `World.classify_eq_allStatic_iff`: a type is all static exactly if its chain reaches the root.
-/

namespace ModuleAudit

def TypeName.root : TypeName := ⟨"System", "Object"⟩

theorem TypeRef.isRoot_iff {r : TypeRef} : r.isRoot = true ↔ r.name = TypeName.root := by
  have hread : TypeName.ofText WellKnown.object = TypeName.root := by decide
  rw [isRoot, isNamed, TypeName.reads, hread, beq_iff_eq]

/-- `x` is the first element of a list for which `Q` fails. -/
def FirstFailing {β : Type} (Q : β → Prop) (l : List β) (x : β) : Prop :=
  ∃ before after, l = before ++ x :: after ∧ ¬Q x ∧ ∀ y ∈ before, Q y

section FirstFailing

variable {β : Type} {p : β → Bool} {Q : β → Prop} {l : List β} {x : β}

theorem find?_eq_none_iff_forall (hp : ∀ y, p y = true ↔ ¬Q y) :
    l.find? p = none ↔ ∀ y ∈ l, Q y := by
  rw [List.find?_eq_none]
  refine forall₂_congr fun y _ => ?_
  rw [hp, Classical.not_not]

theorem find?_eq_some_iff_firstFailing (hp : ∀ y, p y = true ↔ ¬Q y) :
    l.find? p = some x ↔ FirstFailing Q l x := by
  have hkeep : ∀ y, (!p y) = true ↔ Q y := by
    intro y
    rw [Bool.not_eq_true', ← Bool.not_eq_true, hp, Classical.not_not]
  rw [List.find?_eq_some_iff_append, hp]
  constructor
  · rintro ⟨hx, before, after, hsplit, hbefore⟩
    exact ⟨before, after, hsplit, hx, fun y hy => (hkeep y).mp (hbefore y hy)⟩
  · rintro ⟨before, after, hsplit, hx, hbefore⟩
    exact ⟨hx, before, after, hsplit, fun y hy => (hkeep y).mpr (hbefore y hy)⟩

end FirstFailing

/-- As a constructor, the method says nothing about instances. -/
def Method.Tolerated (m : Method) : Prop := m.isStatic = true ∨ m.arity ≤ 1

namespace TypeDef

structure Clean (t : TypeDef) : Prop where
  constructors : ∀ m ∈ t.constructors, m.Tolerated
  methods : ∀ m ∈ t.plainMethods, m.isStatic = true
  fields : ∀ f ∈ t.fields, f.isStatic = true

/-- The first member of a type that needs an instance: constructors count before methods and methods
before fields, and each kind in declaration order. -/
inductive FirstOffence (t : TypeDef) : Token → InstanceKind → Prop where
  | constructor {m : Method} (hm : FirstFailing Method.Tolerated t.constructors m) :
      FirstOffence t m.token .constructor
  | method {m : Method} (hctors : ∀ c ∈ t.constructors, c.Tolerated)
      (hm : FirstFailing (·.isStatic = true) t.plainMethods m) : FirstOffence t m.token .method
  | field {f : Field} (hctors : ∀ c ∈ t.constructors, c.Tolerated)
      (hmethods : ∀ m ∈ t.plainMethods, m.isStatic = true)
      (hf : FirstFailing (·.isStatic = true) t.fields f) : FirstOffence t f.token .field

/-- The three searches of `instanceMember?`, each in the list of its own kind. -/
theorem instanceMember?_eq (t : TypeDef) : t.instanceMember? =
    match t.constructors.find? (fun m => !m.isStatic && decide (1 < m.arity)) with
    | some m => some (m.token, .constructor)
    | none =>
      match t.plainMethods.find? (!·.isStatic) with
      | some m => some (m.token, .method)
      | none =>
        match t.fields.find? (!·.isStatic) with
        | some f => some (f.token, .field)
        | none => none := by
  -- a search among all methods for one of a kind is a search among those of the kind
  have hctors : t.methods.find? (·.isInstanceCtor) =
      t.constructors.find? fun m => !m.isStatic && decide (1 < m.arity) := by
    rw [constructors, List.find?_filter]
    congr 1
    funext m
    have hsplit : m.isInstanceCtor =
        (m.isConstructor && (!m.isStatic && decide (1 < m.arity))) := Bool.and_assoc _ _ _
    cases hm : m.isConstructor <;> simp [hsplit, hm]
  have hmethods : t.methods.find? (·.isInstanceMethod) =
      t.plainMethods.find? (!·.isStatic) := by
    rw [plainMethods, List.find?_filter]
    congr 1
    funext m
    cases hm : m.isConstructor <;> simp [Method.isInstanceMethod, hm]
  unfold instanceMember?
  exact hctors ▸ hmethods ▸ rfl

theorem not_tolerated_iff (m : Method) :
    (!m.isStatic && decide (1 < m.arity)) = true ↔ ¬m.Tolerated := by
  simp [Method.Tolerated]

theorem instanceMember?_eq_none_iff {t : TypeDef} : t.instanceMember? = none ↔ t.Clean := by
  rw [instanceMember?_eq]
  constructor
  · intro h
    split at h
    · cases h
    · next hctors =>
      split at h
      · cases h
      · next hmethods =>
        split at h
        · cases h
        · next hfields =>
          exact ⟨(find?_eq_none_iff_forall not_tolerated_iff).mp hctors,
            (find?_eq_none_iff_forall (by simp)).mp hmethods,
            (find?_eq_none_iff_forall (by simp)).mp hfields⟩
  · rintro ⟨hctors, hmethods, hfields⟩
    rw [(find?_eq_none_iff_forall not_tolerated_iff).mpr hctors,
      (find?_eq_none_iff_forall (by simp)).mpr hmethods,
      (find?_eq_none_iff_forall (by simp)).mpr hfields]

theorem instanceMember?_eq_some_iff {t : TypeDef} {member : Token} {kind : InstanceKind} :
    t.instanceMember? = some (member, kind) ↔ t.FirstOffence member kind := by
  rw [instanceMember?_eq]
  constructor
  · intro h
    split at h
    · next m hm =>
      cases h
      exact .constructor ((find?_eq_some_iff_firstFailing not_tolerated_iff).mp hm)
    · next hctors =>
      have hctors := (find?_eq_none_iff_forall not_tolerated_iff).mp hctors
      split at h
      · next m hm =>
        cases h
        exact .method hctors ((find?_eq_some_iff_firstFailing (by simp)).mp hm)
      · next hmethods =>
        split at h
        · next f hf =>
          cases h
          exact .field hctors ((find?_eq_none_iff_forall (by simp)).mp hmethods)
            ((find?_eq_some_iff_firstFailing (by simp)).mp hf)
        · cases h
  · intro h
    cases h with
    | constructor hm => rw [(find?_eq_some_iff_firstFailing not_tolerated_iff).mpr hm]
    | method hctors hm =>
      rw [(find?_eq_none_iff_forall not_tolerated_iff).mpr hctors,
        (find?_eq_some_iff_firstFailing (by simp)).mpr hm]
    | field hctors hmethods hf =>
      rw [(find?_eq_none_iff_forall not_tolerated_iff).mpr hctors,
        (find?_eq_none_iff_forall (by simp)).mpr hmethods,
        (find?_eq_some_iff_firstFailing (by simp)).mpr hf]

end TypeDef

namespace BaseChain

/-- The stage that the base of a type leads to, short of the root. -/
def next? (w : World) (s : Stage) : Option Stage :=
  match s.type.base with
  | none => none
  | some base =>
    if base.name = TypeName.root then none
    else (w.resolve s.home base).map fun found => ⟨found.2.getD s.home, found.1⟩

def stage? (w : World) (s : Stage) : Nat → Option Stage
  | 0 => some s
  | n + 1 => (stage? w s n).bind (next? w)

/-- The chain need not be followed beyond the stage: its type has a member that needs an instance, or
it has no base, or the base is the root or leads nowhere. -/
def Decides (w : World) (s : Stage) : Prop :=
  ¬s.type.Clean ∨ s.type.base = none ∨
    ∃ base, s.type.base = some base ∧ (base.name = TypeName.root ∨ w.resolve s.home base = none)

inductive Verdict (w : World) (s : Stage) : Classification → Prop where
  | instanceMember {member : Token} {kind : InstanceKind} (h : s.type.FirstOffence member kind) :
      Verdict w s (.instanceMember s.type.token member kind)
  | noBase (hclean : s.type.Clean) (hbase : s.type.base = none) :
      Verdict w s (.unclassifiable (.noBase s.type.token))
  | allStatic {base : TypeRef} (hclean : s.type.Clean) (hbase : s.type.base = some base)
      (hroot : base.name = TypeName.root) : Verdict w s .allStatic
  | unresolvedBase {base : TypeRef} (hclean : s.type.Clean) (hbase : s.type.base = some base)
      (hroot : base.name ≠ TypeName.root) (hresolve : w.resolve s.home base = none) :
      Verdict w s (.unclassifiable (.unresolvedBase base))

variable {w : World} {s r : Stage} {c : Classification} {n : Nat}

/-! ### One step of the walk -/

theorem verdict_of_step (h : step w s = .answer c) : Verdict w s c := by
  unfold step at h
  split at h
  · next member kind hmember =>
    cases h
    exact .instanceMember (TypeDef.instanceMember?_eq_some_iff.mp hmember)
  · next hmember =>
    have hclean := TypeDef.instanceMember?_eq_none_iff.mp hmember
    split at h
    · next hbase =>
      cases h
      exact .noBase hclean hbase
    · next base hbase =>
      split at h
      · next hroot =>
        cases h
        exact .allStatic hclean hbase (TypeRef.isRoot_iff.mp hroot)
      · next hroot =>
        rw [TypeRef.isRoot_iff] at hroot
        split at h
        · next hresolve =>
          cases h
          exact .unresolvedBase hclean hbase hroot hresolve
        · cases h

theorem Verdict.step (h : Verdict w s c) : step w s = .answer c := by
  unfold BaseChain.step
  cases h with
  | instanceMember h => rw [TypeDef.instanceMember?_eq_some_iff.mpr h]
  | noBase hclean hbase =>
    rw [TypeDef.instanceMember?_eq_none_iff.mpr hclean, hbase]
  | allStatic hclean hbase hroot =>
    rw [TypeDef.instanceMember?_eq_none_iff.mpr hclean, hbase]
    exact if_pos (TypeRef.isRoot_iff.mpr hroot)
  | unresolvedBase hclean hbase hroot hresolve =>
    rw [TypeDef.instanceMember?_eq_none_iff.mpr hclean, hbase]
    refine (if_neg (mt TypeRef.isRoot_iff.mp hroot)).trans ?_
    rw [hresolve]

theorem step_eq_answer_iff : step w s = .answer c ↔ Verdict w s c := ⟨verdict_of_step, Verdict.step⟩

theorem next?_eq_some_iff : next? w s = some r ↔ ∃ base t owner, s.type.base = some base ∧
    base.name ≠ TypeName.root ∧ w.resolve s.home base = some (t, owner) ∧
    r = ⟨owner.getD s.home, t⟩ := by
  unfold next?
  constructor
  · intro h
    split at h
    · cases h
    · next base hbase =>
      split at h
      · cases h
      · next hroot =>
        obtain ⟨⟨t, owner⟩, hresolve, rfl⟩ := Option.map_eq_some_iff.mp h
        exact ⟨base, t, owner, hbase, hroot, hresolve, rfl⟩
  · rintro ⟨base, t, owner, hbase, hroot, hresolve, rfl⟩
    rw [hbase]
    refine (if_neg hroot).trans ?_
    rw [hresolve]
    rfl

theorem step_eq_move_iff : step w s = .move r ↔ s.type.Clean ∧ next? w s = some r := by
  rw [next?_eq_some_iff]
  constructor
  · intro h
    unfold step at h
    split at h
    · cases h
    · next hmember =>
      refine ⟨TypeDef.instanceMember?_eq_none_iff.mp hmember, ?_⟩
      split at h
      · cases h
      · next base hbase =>
        split at h
        · cases h
        · next hroot =>
          split at h
          · cases h
          · next t owner hresolve =>
            cases h
            exact ⟨base, t, owner, hbase, mt TypeRef.isRoot_iff.mpr hroot, hresolve, rfl⟩
  · rintro ⟨hclean, base, t, owner, hbase, hroot, hresolve, rfl⟩
    unfold step
    rw [TypeDef.instanceMember?_eq_none_iff.mpr hclean, hbase]
    refine (if_neg (mt TypeRef.isRoot_iff.mp hroot)).trans ?_
    rw [hresolve]

theorem not_decides_iff : ¬Decides w s ↔ ∃ r, step w s = .move r := by
  constructor
  · intro h
    simp only [Decides, not_or, Classical.not_not, not_exists, not_and] at h
    obtain ⟨hclean, hbase, hgo⟩ := h
    obtain ⟨base, hbase⟩ := Option.ne_none_iff_exists'.mp hbase
    obtain ⟨hroot, hresolve⟩ := hgo base hbase
    obtain ⟨⟨t, owner⟩, hresolve⟩ := Option.ne_none_iff_exists'.mp hresolve
    exact ⟨_, step_eq_move_iff.mpr
      ⟨hclean, next?_eq_some_iff.mpr ⟨base, t, owner, hbase, hroot, hresolve, rfl⟩⟩⟩
  · rintro ⟨r, h⟩ hdecides
    obtain ⟨hclean, hnext⟩ := step_eq_move_iff.mp h
    obtain ⟨base, t, owner, hbase, hroot, hresolve, -⟩ := next?_eq_some_iff.mp hnext
    rcases hdecides with hunclean | hnone | ⟨base', hbase', hend⟩
    · exact hunclean hclean
    · rw [hbase] at hnone
      cases hnone
    · rw [hbase] at hbase'
      cases hbase'
      rcases hend with hroot' | hnone
      · exact hroot hroot'
      · rw [hresolve] at hnone
        cases hnone

theorem Decides.exists_verdict (h : Decides w s) : ∃ c, Verdict w s c := by
  cases hstep : step w s with
  | answer c => exact ⟨c, step_eq_answer_iff.mp hstep⟩
  | move r => exact absurd h (not_decides_iff.mpr ⟨r, hstep⟩)

/-! ### The chain and the walk along it -/

/-- The walk reaches the stages of the chain up to the first one that decides. -/
theorem moves_iff : (walk w).Moves n s r ↔
    stage? w s n = some r ∧ ∀ m < n, ∀ q, stage? w s m = some q → ¬Decides w q := by
  induction n generalizing r with
  | zero =>
    constructor
    · intro h
      cases h
      exact ⟨rfl, nofun⟩
    · rintro ⟨h, -⟩
      cases h
      exact .zero s
  | succ n ih =>
    constructor
    · intro h
      obtain ⟨q, hq, hstep⟩ := h.exists_last
      obtain ⟨hstage, hbefore⟩ := ih.mp hq
      refine ⟨?_, fun m hm x hx => ?_⟩
      · rw [stage?, hstage]
        exact (step_eq_move_iff.mp hstep).2
      · by_cases hmn : m = n
        · rw [hmn, hstage] at hx
          cases hx
          exact not_decides_iff.mpr ⟨r, hstep⟩
        · exact hbefore m (by omega) x hx
    · rintro ⟨hstage, hbefore⟩
      obtain ⟨q, hq, hnext⟩ := Option.bind_eq_some_iff.mp hstage
      have hgo := hbefore n (Nat.lt_succ_self n) q hq
      obtain ⟨r', hstep⟩ := not_decides_iff.mp hgo
      have heq := (step_eq_move_iff.mp hstep).2
      rw [hnext] at heq
      cases heq
      exact (ih.mpr ⟨hq, fun m hm => hbefore m (Nat.lt_succ_of_lt hm)⟩).snoc hstep

/-- The registered type that a key names. -/
def registered? (w : World) (key : RegistryId × Token) : Option Stage :=
  (w.get? key.1 key.2).map (Stage.mk key.1)

theorem registered?_key (h : r.type ∈ w.types r.home) : registered? w r.key = some r := by
  have hget := World.get?_eq_some_iff.mpr ⟨h, rfl⟩
  show (w.get? r.home r.type.token).map (Stage.mk r.home) = some r
  rw [hget]
  rfl

theorem registered?_of_step (s r : Stage) (h : (walk w).step s = .move r) :
    registered? w ((walk w).key r) = some r := registered?_key (mem_types_of_step h)

/-- The keys of a chain tell its stages apart, unless it starts from a type whose token means another
type where it starts. -/
theorem faithful_walk (h : w.get? s.home s.type.token = none ∨
    w.get? s.home s.type.token = some s.type) : (walk w).Faithful s := by
  refine Walk.faithful_of_lookup (registered? w) registered?_of_step ?_
  show (w.get? s.home s.type.token).map (Stage.mk s.home) = none ∨
    (w.get? s.home s.type.token).map (Stage.mk s.home) = some s
  rcases h with h | h
  · rw [h]
    exact .inl rfl
  · rw [h]
    exact .inr rfl

structure FirstDecision (w : World) (s : Stage) (n : Nat) (r : Stage) : Prop where
  stage : stage? w s n = some r
  decides : Decides w r
  before : ∀ m < n, ∀ q, stage? w s m = some q → ¬Decides w q

/-- The first stage at which a chain comes back to a stage. -/
structure FirstReturn (w : World) (s : Stage) (n : Nat) (r : Stage) : Prop where
  stage : stage? w s n = some r
  earlier : ∃ m < n, stage? w s m = some r
  distinct : ∀ i j q, i < j → j < n → stage? w s i = some q → stage? w s j ≠ some q

/-- The chain ends at the root, and all types on the way are clean. -/
def ReachesRoot (w : World) (s : Stage) : Prop :=
  ∃ n r base, stage? w s n = some r ∧ r.type.base = some base ∧ base.name = TypeName.root ∧
    ∀ m ≤ n, ∀ q, stage? w s m = some q → q.type.Clean

theorem FirstReturn.of_walk (hgo : ∀ n q, stage? w s n = some q → ¬Decides w q)
    (h : (walk w).FirstReturn s n r) : FirstReturn w s n r := by
  have moves_of_stage : ∀ m q, stage? w s m = some q → (walk w).Moves m s q :=
    fun m q hq => moves_iff.mpr ⟨hq, fun k _ x hx => hgo k x hx⟩
  refine ⟨(moves_iff.mp h.moves).1, ?_, ?_⟩
  · obtain ⟨m, hm, hmoves⟩ := h.earlier
    exact ⟨m, hm, (moves_iff.mp hmoves).1⟩
  · intro i j q hij hj hi hj'
    exact h.distinct i j q hij hj (moves_of_stage i q hi) (moves_of_stage j q hj')

theorem exists_stage?_of_le {m : Nat} (h : stage? w s n = some r) (hle : m ≤ n) :
    ∃ q, stage? w s m = some q := by
  induction hle generalizing r with
  | refl => exact ⟨r, h⟩
  | step _ ih =>
    obtain ⟨q, hq, -⟩ := Option.bind_eq_some_iff.mp h
    exact ih hq

theorem not_decides_of_lt {m : Nat} {q : Stage} (h : stage? w s n = some r) (hlt : m < n)
    (hq : stage? w s m = some q) (hclean : q.type.Clean) : ¬Decides w q := by
  obtain ⟨q', hq'⟩ := exists_stage?_of_le h (Nat.succ_le_of_lt hlt)
  rw [stage?, hq] at hq'
  exact not_decides_iff.mpr ⟨q', step_eq_move_iff.mpr ⟨hclean, hq'⟩⟩

theorem reachesRoot_iff : ReachesRoot w s ↔
    ∃ n r, (walk w).Moves n s r ∧ step w r = .answer .allStatic := by
  constructor
  · rintro ⟨n, r, base, hstage, hbase, hroot, hclean⟩
    refine ⟨n, r, moves_iff.mpr ⟨hstage, fun m hm q hq => ?_⟩, ?_⟩
    · exact not_decides_of_lt hstage hm hq (hclean m (Nat.le_of_lt hm) q hq)
    · exact (Verdict.allStatic (hclean n (Nat.le_refl n) r hstage) hbase hroot).step
  · rintro ⟨n, r, hmoves, hstep⟩
    obtain ⟨hstage, hbefore⟩ := moves_iff.mp hmoves
    cases step_eq_answer_iff.mp hstep with
    | allStatic hclean hbase hroot =>
      refine ⟨n, r, _, hstage, hbase, hroot, fun m hm q hq => ?_⟩
      by_cases hmn : m = n
      · rw [hmn, hstage] at hq
        cases hq
        exact hclean
      · have hgo := hbefore m (by omega) q hq
        exact Classical.not_not.mp fun hunclean => hgo (.inl hunclean)

end BaseChain

namespace World

open BaseChain

variable {w : World} {home : RegistryId} {t : TypeDef}

theorem classify_of_answered {c : Classification} (h : (walk w).run ⟨home, t⟩ = .answered c) :
    w.classify home t = c := by
  rw [classify, h]

theorem classify_of_repeated {s : Stage} (h : (walk w).run ⟨home, t⟩ = .repeated s) :
    w.classify home t = .unclassifiable (.cycle s.type.token) := by
  rw [classify, h]

/-- Where the ways up from two types, be it in two worlds, end alike, the types are classified alike. -/
theorem classify_eq_of_agree {w' : World} {home' : RegistryId} {t' : TypeDef}
    {R : Stage → Stage → Prop} (hR : ∀ s s', R s s' → s'.type.token = s.type.token)
    (h : Walk.EndingsAgree R ((walk w).run ⟨home, t⟩) ((walk w').run ⟨home', t'⟩)) :
    w'.classify home' t' = w.classify home t := by
  unfold classify
  generalize (walk w).run ⟨home, t⟩ = ending at h
  generalize (walk w').run ⟨home', t'⟩ = ending' at h
  cases h with
  | answered c => rfl
  | repeated related =>
    show Classification.unclassifiable (.cycle _) = .unclassifiable (.cycle _)
    rw [hR _ _ related]

theorem classify_eq_allStatic_iff
    (h : w.get? home t.token = none ∨ w.get? home t.token = some t) :
    w.classify home t = .allStatic ↔ ReachesRoot w ⟨home, t⟩ := by
  rw [reachesRoot_iff]
  refine Iff.trans ?_ (Walk.run_eq_answered_iff (faithful_walk h))
  constructor
  · intro hclassify
    cases hrun : (walk w).run ⟨home, t⟩ with
    | answered c => rw [← hclassify, classify_of_answered hrun]
    | repeated s =>
      rw [classify_of_repeated hrun] at hclassify
      cases hclassify
  · exact classify_of_answered

/-- The classification of a type says what the first stage of its chain says that decides. Where none
decides, the chain comes back to a stage, and the first one that it comes back to is the cycle. -/
theorem classify_chain (h : w.get? home t.token = none ∨ w.get? home t.token = some t) :
    (∀ n s, FirstDecision w ⟨home, t⟩ n s → ∀ c, w.classify home t = c ↔ Verdict w s c) ∧
      ((∀ n s, stage? w ⟨home, t⟩ n = some s → ¬Decides w s) →
        ∃ n s, FirstReturn w ⟨home, t⟩ n s ∧
          w.classify home t = .unclassifiable (.cycle s.type.token)) := by
  have hfaithful := faithful_walk (s := ⟨home, t⟩) h
  constructor
  · intro n s hfirst c
    -- the walk goes up to the first stage that decides, and its step there is the verdict
    obtain ⟨v, hv⟩ := hfirst.decides.exists_verdict
    have hrun := (Walk.run_eq_answered_iff hfaithful).mpr
      ⟨n, s, moves_iff.mpr ⟨hfirst.stage, hfirst.before⟩, hv.step⟩
    rw [classify_of_answered hrun]
    constructor
    · rintro rfl
      exact hv
    · intro hc
      have heq := hv.step.symm.trans hc.step
      cases heq
      rfl
  · intro hgo
    cases hrun : (walk w).run ⟨home, t⟩ with
    | answered c =>
      obtain ⟨n, s, hmoves, hstep⟩ := (Walk.run_eq_answered_iff hfaithful).mp hrun
      obtain ⟨r, hmove⟩ := not_decides_iff.mp (hgo n s (moves_iff.mp hmoves).1)
      have heq := hstep.symm.trans hmove
      cases heq
    | repeated s =>
      obtain ⟨n, hret⟩ := Walk.firstReturn_of_run_eq_repeated hfaithful hrun
      exact ⟨n, s, .of_walk hgo hret, classify_of_repeated hrun⟩

/-- Types of an application: a helper class over one of a library, that in turn extends another class
here, and a class that goes round with its base. -/
def linkedApp : Registry where
  types := [
    ⟨.typeDef 1, ⟨"App", "Help"⟩, 0, some (.toScope (.typeRef 1) "lib" ⟨"Lib", "Tools"⟩), none, [],
      [.ctor 1], []⟩,
    ⟨.typeDef 2, ⟨"App", "Root"⟩, 0, some .object, none, [], [.ofStatic "log" 2], []⟩,
    ⟨.typeDef 3, ⟨"App", "Ring"⟩, 0, some (.toScope (.typeRef 2) "lib" ⟨"Lib", "Ring"⟩), none, [],
      [], []⟩]
  links := [("lib", 1)]
  sorted := by decide
  valid := by decide

/-- Types of a library that refer back to the application, under tokens that the application uses too. -/
def linkedLib : Registry where
  types := [
    ⟨.typeDef 1, ⟨"Lib", "Tools"⟩, 0, some (.toScope (.typeRef 1) "app" ⟨"App", "Root"⟩), none, [],
      [.cctor], [.ofStatic "count"]⟩,
    ⟨.typeDef 3, ⟨"Lib", "Ring"⟩, 0, some (.toScope (.typeRef 2) "app" ⟨"App", "Ring"⟩), none, [],
      [], []⟩]
  links := [("app", 0)]
  sorted := by decide
  valid := by decide

def linked : World := ⟨[linkedApp, linkedLib]⟩

theorem classify_linked :
    (linked.get? 0 linkedApp.types[0].token = some linkedApp.types[0] ∧
      linked.classify 0 linkedApp.types[0] = .allStatic) ∧
    (linked.get? 0 linkedApp.types[2].token = some linkedApp.types[2] ∧
      linked.classify 0 linkedApp.types[2] = .unclassifiable (.cycle (.typeDef 3))) := by
  refine ⟨⟨by decide, ?_⟩, by decide, ?_⟩
  · have hfirst : FirstDecision linked ⟨0, linkedApp.types[0]⟩ 2 ⟨0, linkedApp.types[1]⟩ := by
      refine ⟨by decide, .inr (.inr ⟨.object, rfl, .inl rfl⟩), fun m hm q hq => ?_⟩
      refine not_decides_of_lt (n := 2) (r := ⟨0, linkedApp.types[1]⟩) (by decide) hm hq ?_
      have hcases : m = 0 ∨ m = 1 := by omega
      rcases hcases with rfl | rfl <;> cases hq <;>
        exact TypeDef.instanceMember?_eq_none_iff.mp (by decide)
    refine ((classify_chain (.inr (by decide))).1 _ _ hfirst .allStatic).mpr ?_
    exact .allStatic (TypeDef.instanceMember?_eq_none_iff.mp (by decide)) rfl rfl
  · -- the two rings take turns for ever
    have hring : ∀ n, stage? linked ⟨0, linkedApp.types[2]⟩ n = some ⟨0, linkedApp.types[2]⟩ ∨
        stage? linked ⟨0, linkedApp.types[2]⟩ n = some ⟨1, linkedLib.types[1]⟩ := by
      intro n
      induction n with
      | zero => exact .inl rfl
      | succ n ih =>
        rcases ih with ih | ih
        · refine .inr ?_
          rw [stage?, ih]
          decide
        · refine .inl ?_
          rw [stage?, ih]
          decide
    have hgo : ∀ n s, stage? linked ⟨0, linkedApp.types[2]⟩ n = some s → ¬Decides linked s := by
      intro n s hs
      rw [not_decides_iff]
      rcases hring n with h | h <;> rw [h] at hs <;> cases hs
      · exact ⟨⟨1, linkedLib.types[1]⟩, by decide⟩
      · exact ⟨⟨0, linkedApp.types[2]⟩, by decide⟩
    obtain ⟨n, s, hret, hclassify⟩ := (classify_chain (.inr (by decide))).2 hgo
    rw [hclassify]
    rcases hring n with h | h <;> rw [hret.stage] at h <;> cases h <;> rfl

end World

end ModuleAudit
