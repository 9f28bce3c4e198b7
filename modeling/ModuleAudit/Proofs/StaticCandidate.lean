import ModuleAudit.Proofs.BaseChain
import ModuleAudit.Proofs.Nesting
import ModuleAudit.Proofs.Recital

/-!
# What the rule for static classes reports

The candidates of a module are said here without the walks that the rule takes: by the types that
enclose a type, and by the chain of its bases. An audit with this rule alone finds exactly them.

## Main definitions

* `StaticCandidate.Qualifies`, `StaticCandidate.candidates`: the classes that could be declared static.
* `StaticCandidate.finding`: what is reported of such a class.
* `StaticCandidate.due`: what is found in a module, in the order of tokens.

## Main statements

* `StaticCandidate.toList_audit`: an audit adds one finding for each candidate, in the order of tokens
  unless it checks types at the same time.
-/

namespace ModuleAudit.StaticCandidate

/-- A class that somebody wrote, that is not declared static, and that needs no instances. -/
structure Qualifies (w : World) (m : Module) (t : TypeDef) : Prop where
  notEnum : t.isEnum = false
  notInterface : t.isInterface = false
  notValueType : t.isValueType = false
  notDelegate : t.isDelegate = false
  written : ∀ u, Within (w.get? m.registry) t u → u.isSelfGenerated = false
  notDeclaredStatic : t.isDeclaredStatic = false
  reachesRoot : BaseChain.ReachesRoot w ⟨m.registry, t⟩

open Classical in
/-- The types of a module that qualify, in the order of their tokens. -/
noncomputable def candidates (w : World) (m : Module) : List TypeDef :=
  (m.types w).filter fun t => decide (Qualifies w m t)

def finding (t : TypeDef) : Defect :=
  ⟨name, t.token, t.fullName, .medium, .high, problem⟩

variable {w : World} {m : Module} {t : TypeDef}

theorem get?_of_mem_types (h : t ∈ m.types w) : w.get? m.registry t.token = some t :=
  World.get?_eq_some_iff.mpr ⟨h, rfl⟩

theorem qualifies_iff (h : t ∈ m.types w) : Qualifies w m t ↔
    concerns w m t = true ∧ t.isDeclaredStatic = false ∧ w.classify m.registry t = .allStatic := by
  have hget := Or.inr (a := w.get? m.registry t.token = none) (get?_of_mem_types h)
  have hgenerated := not_congr (World.isGenerated_iff hget)
  rw [World.classify_eq_allStatic_iff hget]
  constructor
  · intro hq
    have hwritten : ¬w.isGenerated m.registry t = true := hgenerated.mpr fun ⟨u, hwithin, hu⟩ => by
      rw [hq.written u hwithin] at hu
      cases hu
    refine ⟨?_, hq.notDeclaredStatic, hq.reachesRoot⟩
    simp [concerns, hq.notEnum, hq.notInterface, hq.notValueType, hq.notDelegate, hwritten]
  · rintro ⟨hconcerns, hstatic, hroot⟩
    simp only [concerns, Bool.not_eq_true', Bool.or_eq_false_iff] at hconcerns
    obtain ⟨⟨⟨⟨henum, hinterface⟩, hvalue⟩, hdelegate⟩, hwritten⟩ := hconcerns
    refine ⟨henum, hinterface, hvalue, hdelegate, fun u hwithin => ?_, hstatic, hroot⟩
    rw [← Bool.not_eq_true]
    intro hu
    exact hgenerated.mp (by rw [hwritten]; decide) ⟨u, hwithin, hu⟩

open Classical in
/-- What the rule says of a type of the module: that it qualifies, or nothing. -/
theorem remarksOn_eq {rule : StaticCandidate} (h : t ∈ m.types w) :
    Auditor.remarksOn remarks w m rule t =
      if rule.active = true ∧ Qualifies w m t then [finding t] else [] := by
  have hcondition : (rule.active = true ∧ concerns w m t = true ∧ t.isDeclaredStatic = false ∧
      w.classify m.registry t = .allStatic) ↔ rule.active = true ∧ Qualifies w m t :=
    and_congr_right fun _ => (qualifies_iff h).symm
  unfold Auditor.remarksOn remarks
  by_cases hq : rule.active = true ∧ Qualifies w m t
  · rw [if_pos (hcondition.mpr hq), if_pos hq]
    rfl
  · rw [if_neg (hcondition.not.mpr hq), if_neg hq]
    rfl

/-- What the rule says of a module, type by type: that the candidates qualify, or nothing. -/
theorem flatMap_remarksOn (w : World) (m : Module) (rule : StaticCandidate) :
    (m.types w).flatMap (Auditor.remarksOn remarks w m rule) =
      if rule.active = true then (candidates w m).map finding else [] := by
  by_cases hactive : rule.active = true
  · rw [if_pos hactive]
    suffices h : ∀ types, types ⊆ m.types w →
        types.flatMap (Auditor.remarksOn remarks w m rule) =
          (types.filter fun t => @decide _ (Classical.propDecidable (Qualifies w m t))).map finding from
      h (m.types w) (List.Subset.refl _)
    intro types hsubset
    induction types with
    | nil => rfl
    | cons t rest ih =>
      obtain ⟨ht, hrest⟩ := List.cons_subset.mp hsubset
      rw [List.flatMap_cons, ih hrest, List.filter_cons, remarksOn_eq ht]
      by_cases hq : Qualifies w m t <;> simp [hactive, hq]
  · rw [if_neg hactive, List.flatMap_eq_nil_iff]
    intro t ht
    rw [remarksOn_eq ht, if_neg fun h => hactive h.1]

theorem passing_map_finding (policy : Policy) (types : List TypeDef) :
    policy.passing (types.map finding) =
      if policy.accepts .medium .high = true then types.map finding else [] := by
  induction types with
  | nil => split <;> rfl
  | cons t rest ih =>
    have hfinding : policy.accepts (finding t).severity (finding t).confidence =
        policy.accepts .medium .high := rfl
    rw [List.map_cons, Policy.passing_cons, ih, hfinding]
    split <;> rfl

theorem agenda_singleton (policy : Policy) (rule : StaticCandidate) (log : DefectLog) (plan : Plan) :
    (⟨policy, [rule], log⟩ : Auditor StaticCandidate).agenda plan =
      if rule.active = false ∧ policy.skipInactive = true then [] else [(rule, plan 0)] := by
  have hskip : (⟨policy, [rule], log⟩ : Auditor StaticCandidate).isSkipped rule =
      (!rule.active && policy.skipInactive) := rfl
  rw [Auditor.agenda, List.zipIdx_singleton, List.filter_singleton, hskip]
  cases rule.active <;> cases policy.skipInactive <;> rfl

/-- What an audit with this rule alone adds to a log without a limit: a finding for each candidate, where
static classes can be declared and the policy accepts such findings. -/
noncomputable def due (policy : Policy) (w : World) (m : Module) : List Defect :=
  if .v2_0 ≤ m.framework ∧ policy.accepts .medium .high = true then
    (candidates w m).map fun t =>
      ⟨"ConsiderUsingStaticTypeRule", t.token, t.fullName, .medium, .high, problem⟩
  else []

theorem passing_flatMap_remarksOn (policy : Policy) (w : World) (m : Module) :
    policy.passing ((m.types w).flatMap (Auditor.remarksOn remarks w m (start m.framework))) =
      due policy w m := by
  have hactive : (start m.framework).active = true ↔ .v2_0 ≤ m.framework := decide_eq_true_iff
  rw [flatMap_remarksOn, due]
  by_cases hon : .v2_0 ≤ m.framework
  · rw [if_pos (hactive.mpr hon), passing_map_finding]
    simp only [hon, true_and]
    rfl
  · rw [if_neg (hactive.not.mpr hon), if_neg fun h => hon h.1]
    rfl

/-- Without a limit, an audit with this rule alone adds one finding for each candidate of the module,
where static classes can be declared and the policy accepts such findings, and otherwise nothing. It adds
them in the order of tokens, unless it checks types at the same time: then in some order. -/
theorem toList_audit {policy : Policy} (hlimit : policy.limit = none) (rule : StaticCandidate)
    (log : DefectLog) (w : World) (m : Module) (plan : Plan) :
    ∃ found, ((⟨policy, [rule], log⟩ : Auditor StaticCandidate).audit w m plan).2.log.toList =
        log.toList ++ found ∧
      found.Perm (due policy w m) ∧ (policy.parallel = false → found = due policy w m) := by
  let a : Auditor StaticCandidate := ⟨policy, [start m.framework], log⟩
  show ∃ found, (a.checkRules w m (a.agenda plan)).2.log.toList = log.toList ++ found ∧ _
  rw [agenda_singleton]
  split
  · next hskip =>
    -- the rule is off, and skipped
    have hdue : due policy w m = [] := by
      refine if_neg fun hon => ?_
      have hactive : (start m.framework).active = true := decide_eq_true hon.1
      rw [hskip.1] at hactive
      cases hactive
    exact ⟨[], (List.append_nil _).symm, hdue ▸ .refl [], fun _ => hdue.symm⟩
  · obtain ⟨part, hpart, -, hafter⟩ :=
      Auditor.exists_put_checkTypes recites_check a (start m.framework) w m (plan 0)
    refine ⟨policy.passing part, ?_, ?_, fun hparallel => ?_⟩
    · show (a.checkTypes (start m.framework) w m (plan 0)).2.log.toList = _
      rw [hafter, Auditor.toList_put, Policy.keeps_of_limit_eq_none hlimit]
    · rw [← passing_flatMap_remarksOn]
      exact hpart.perm_flatten.filter _
    · rw [← passing_flatMap_remarksOn, List.flatMap_def]
      exact congrArg policy.passing (Auditor.comesBy_false.mp (hparallel ▸ hpart))

theorem candidates_linked :
    (candidates .linked ⟨"App", .v4_0, 0⟩).map (·.token) = [.typeDef 1, .typeDef 2] := by
  have hremarks := flatMap_remarksOn .linked ⟨"App", .v4_0, 0⟩ ⟨true⟩
  rw [if_pos rfl] at hremarks
  have htokens := congrArg (List.map (·.token)) hremarks
  rw [List.map_map] at htokens
  refine Eq.trans ?_ (htokens.symm.trans ?_)
  · rfl
  · decide +kernel

theorem toList_audit_linked : Policy.strict.limit = none ∧ Policy.standard.limit = none ∧
    ((⟨.strict, [initial], .empty⟩ : Auditor StaticCandidate).audit .linked
      ⟨"App", .v4_0, 0⟩ .inOrder).2.log.toList.map (·.token) = [.typeDef 1, .typeDef 2] ∧
    ((⟨.standard, [initial], .empty⟩ : Auditor StaticCandidate).audit .linked
      ⟨"App", .v4_0, 0⟩ Auditor.overtaking).2.log.toList.Perm
        (due .standard .linked ⟨"App", .v4_0, 0⟩) := by
  have hon : .v2_0 ≤ Framework.v4_0 ∧ Policy.strict.accepts .medium .high = true := by decide
  obtain ⟨found, hfound, -, hinOrder⟩ := toList_audit (rfl : Policy.strict.limit = none) initial .empty
    .linked ⟨"App", .v4_0, 0⟩ .inOrder
  obtain ⟨found', hfound', hperm, -⟩ := toList_audit (rfl : Policy.standard.limit = none) initial
    .empty .linked ⟨"App", .v4_0, 0⟩ Auditor.overtaking
  refine ⟨rfl, rfl, ?_, hfound' ▸ hperm⟩
  rw [hfound, hinOrder rfl, due, if_pos hon, List.map_append, List.map_map]
  exact candidates_linked

/-- The root of all types, with the namespace written into the name. -/
def joinedObject : TypeRef := .toScope (.typeRef 1) WellKnown.coreLibrary ⟨"", "System.Object"⟩

/-- An application with one type that has no members. -/
def joinedWorld : World :=
  ⟨[{ types := [{ (TypeDef.ofClass ⟨"App", "Help"⟩).extending joinedObject with token := .typeDef 1 }]
      links := [], sorted := by decide, valid := by decide }]⟩

/-- Where types are checked at the same time, what is found need not come in the order of tokens. And a
type whose base has the full name of the root is not found if that is not what the reference says in its
parts. -/
theorem toList_audit_overtaking :
    Policy.standard.limit = none ∧
    (due .standard .linked ⟨"App", .v4_0, 0⟩).map (·.token) = [.typeDef 1, .typeDef 2] ∧
    ((⟨.standard, [initial], .empty⟩ : Auditor StaticCandidate).audit .linked
      ⟨"App", .v4_0, 0⟩ Auditor.overtaking).2.log.toList.map (·.token) = [.typeDef 2, .typeDef 1] ∧
    (∀ t ∈ Module.types ⟨"App", .v4_0, 0⟩ joinedWorld,
      concerns joinedWorld ⟨"App", .v4_0, 0⟩ t = true ∧ t.isDeclaredStatic = false ∧
        t.members = [] ∧ t.base.map (·.name.text) = some "System.Object") ∧
    (Module.types ⟨"App", .v4_0, 0⟩ joinedWorld).map (·.token) = [.typeDef 1] ∧
    ((⟨.standard, [initial], .empty⟩ : Auditor StaticCandidate).audit joinedWorld
      ⟨"App", .v4_0, 0⟩ .inOrder).2.log.toList = [] := by
  have hon : .v2_0 ≤ Framework.v4_0 ∧ Policy.standard.accepts .medium .high = true := by decide
  refine ⟨rfl, ?_, ?_, ?_, ?_, ?_⟩
  · rw [due, if_pos hon, List.map_map]
    exact candidates_linked
  all_goals decide +kernel

end ModuleAudit.StaticCandidate
