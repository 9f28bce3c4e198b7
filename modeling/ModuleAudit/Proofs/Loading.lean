import ModuleAudit.Proofs.BaseChain
import ModuleAudit.Nesting

/-!
# Worlds that are loaded in any order

The registries of a world start out blank, and then types and links come into them, one at a time and
in any order: a type may come before its base, and a link before all that it leads to. The name indexes
and the link tables keep the order for ever. No answer shows it: what can be looked up depends on the
types and the links that are there, and all else on what can be looked up.

## Main definitions

* `World.Load`, `World.loadAll`: types and links that come into a world, up to the first refusal.
* `World.Loadable`: loads that do not get into each other's way.
* `World.Loaded`: what a world holds after loads.
* `World.Matches`: worlds that hold the same types and links, whichever way they came.

## Main statements

* `World.loaded_of_loadAll`: what loads leave behind.
* `World.exists_loadAll`: loads that do not get into each other's way are all accepted.
* `World.Matches.resolve`, `isGenerated`, `classify`: worlds that match answer alike.
* `World.loadAll_perm`: the order of loads does not matter to any answer.
-/

namespace ModuleAudit.World

variable {w w' w'' : World} {id other : RegistryId} {t : TypeDef}

/-! ### Worlds that answer alike -/

/-- Two worlds with the same types and the same links in each registry, whichever way they came. -/
structure Matches (w w' : World) : Prop where
  types : ∀ home, w'.types home = w.types home
  links : ∀ home assembly, w'.link? home assembly = w.link? home assembly

namespace Matches

theorem get? (h : w.Matches w') (home : RegistryId) (token : Token) :
    w'.get? home token = w.get? home token := by
  ext t
  rw [get?_eq_some_iff, get?_eq_some_iff, h.types]

theorem findByName? (h : w.Matches w') (home : RegistryId) (fullName : String) :
    w'.findByName? home fullName = w.findByName? home fullName := by
  ext t
  rw [findByName?_eq_some_iff, findByName?_eq_some_iff, h.types]

theorem resolve (h : w.Matches w') (home : RegistryId) (base : TypeRef) :
    w'.resolve home base = w.resolve home base := by
  simp only [World.resolve, h.get?, h.links, h.findByName?]

theorem isGenerated (h : w.Matches w') (home : RegistryId) (t : TypeDef) :
    w'.isGenerated home t = w.isGenerated home t := by
  -- a registry that is not there stands for an empty one
  have hget : ∀ v : World, ((v.registry? home).getD .empty).get? = v.get? home := by
    intro v
    funext token
    unfold World.get?
    cases v.registry? home <;> rfl
  have hsame : ((w'.registry? home).getD .empty).get? = ((w.registry? home).getD .empty).get? := by
    rw [hget, hget]
    exact funext (h.get? home)
  have hstep : ((w'.registry? home).getD .empty).nestingStep =
      ((w.registry? home).getD .empty).nestingStep := by
    funext u
    rw [Registry.nestingStep, Registry.nestingStep, Registry.enclosing?, Registry.enclosing?, hsame]
  have hrun : ((w'.registry? home).getD .empty).nestingWalk.run t =
      ((w.registry? home).getD .empty).nestingWalk.run t := by
    apply Walk.run_congr
    · rfl
    · exact hstep
  rw [World.isGenerated, World.isGenerated, Registry.isGenerated, Registry.isGenerated, hrun]

theorem classify (h : w.Matches w') (home : RegistryId) (t : TypeDef) :
    w'.classify home t = w.classify home t := by
  have hstep : BaseChain.step w' = BaseChain.step w := by
    funext s
    simp only [BaseChain.step, h.resolve]
  have hrun : (BaseChain.walk w').run ⟨home, t⟩ = (BaseChain.walk w).run ⟨home, t⟩ := by
    apply Walk.run_congr
    · rfl
    · exact hstep
  rw [World.classify, World.classify, hrun]

end Matches

/-! ### Loads -/

/-- A type or a link that comes into a registry. -/
inductive Load where
  | insert (home : RegistryId) (t : TypeDef)
  | link (home : RegistryId) (assembly : String) (target : RegistryId)
deriving DecidableEq, Repr

def load (w : World) : Load → Except MetadataError World
  | .insert home t => w.insert home t
  | .link home assembly target => .ok (w.link home assembly target)

/-- The world after all loads, or the cause why the first one that is refused is not accepted. -/
def loadAll (w : World) : List Load → Except MetadataError World
  | [] => .ok w
  | c :: rest =>
    match w.load c with
    | .error e => .error e
    | .ok w => w.loadAll rest

/-- So many registries, all of them empty. -/
def blank (n : Nat) : World := ⟨List.replicate n .empty⟩

namespace Load

/-- The registry that a type or a link comes into. -/
def home : Load → RegistryId
  | insert home _ => home
  | link home _ _ => home

def type? : Load → Option TypeDef
  | insert _ t => some t
  | link .. => none

def link? : Load → Option (String × RegistryId)
  | insert .. => none
  | link _ assembly target => some (assembly, target)

end Load

/-- The types that come into a registry, first one first. -/
def typesFor (home : RegistryId) (loads : List Load) : List TypeDef :=
  (loads.filter fun c => c.home = home).filterMap Load.type?

/-- The links that come into a registry, first one first. -/
def linksFor (home : RegistryId) (loads : List Load) : List (String × RegistryId) :=
  (loads.filter fun c => c.home = home).filterMap Load.link?

theorem typesFor_append (home : RegistryId) (loads more : List Load) :
    typesFor home (loads ++ more) = typesFor home loads ++ typesFor home more := by
  rw [typesFor, List.filter_append, List.filterMap_append]
  rfl

theorem linksFor_append (home : RegistryId) (loads more : List Load) :
    linksFor home (loads ++ more) = linksFor home loads ++ linksFor home more := by
  rw [linksFor, List.filter_append, List.filterMap_append]
  rfl

theorem typesFor_singleton (home : RegistryId) (c : Load) :
    typesFor home [c] = if c.home = home then c.type?.toList else [] := by
  unfold typesFor
  by_cases h : c.home = home
  · cases hc : c.type? <;> simp [h, hc]
  · simp [h]

theorem linksFor_singleton (home : RegistryId) (c : Load) :
    linksFor home [c] = if c.home = home then c.link?.toList else [] := by
  unfold linksFor
  by_cases h : c.home = home
  · cases hc : c.link? <;> simp [h, hc]
  · simp [h]

/-- What a world holds after loads: in each registry the types and the links that came into it, on top
of what was there. Of two links for one assembly the later one counts. -/
structure Loaded (w : World) (loads : List Load) (w' : World) : Prop where
  length : w'.registries.length = w.registries.length
  types : ∀ home < w.registries.length,
    (w'.types home).Perm (w.types home ++ typesFor home loads)
  links : ∀ home < w.registries.length, ∀ assembly, w'.link? home assembly =
    ((linksFor home loads).reverse.lookup assembly).or (w.link? home assembly)

theorem exists_registry? (h : id < w.registries.length) : ∃ r, w.registry? id = some r :=
  ⟨_, List.getElem?_eq_getElem h⟩

/-- An accepted load puts its type or its link into its registry, if there is one, and touches nothing
else. -/
theorem load_eq_ok {c : Load} (h : w.load c = .ok w') :
    w.registry? c.home = none ∧ w' = w ∨ ∃ r r', w.registry? c.home = some r ∧
      w' = w.set c.home r' ∧ r'.types.Perm (r.types ++ c.type?.toList) ∧
      ∀ assembly, r'.link? assembly = (c.link?.toList.lookup assembly).or (r.link? assembly) := by
  cases c with
  | insert id t =>
    rcases insert_eq_ok_iff.mp h with habsent | ⟨r, r', hr, hinsert, rfl⟩
    · exact .inl habsent
    · obtain ⟨-, -, htypes, hlinks, -⟩ := Registry.insert_eq_ok_iff.mp hinsert
      refine .inr ⟨r, r', hr, rfl, ?_, fun assembly => ?_⟩
      · rw [htypes]
        exact (Registry.perm_insertSorted t r.types).trans (List.perm_append_singleton t r.types).symm
      · exact congrArg (List.lookup assembly) hlinks
  | link id assembly target =>
    cases h
    show _ ∨ ∃ r r', w.registry? id = some r ∧ _
    unfold World.link
    cases hr : w.registry? id with
    | none => exact .inl ⟨hr, rfl⟩
    | some r =>
      refine .inr ⟨r, r.link assembly target, rfl, rfl, ?_, fun other => ?_⟩
      · exact .of_eq (List.append_nil r.types).symm
      · show List.lookup other ([(assembly, target)] ++ r.links) = _
        exact List.lookup_append

theorem Loaded.refl (w : World) : w.Loaded [] w where
  length := rfl
  types _ _ := .of_eq (List.append_nil _).symm
  links _ _ _ := rfl

theorem Loaded.trans {loads more : List Load} (h : w.Loaded loads w') (h' : w'.Loaded more w'') :
    w.Loaded (loads ++ more) w'' where
  length := h'.length.trans h.length
  types home hhome := by
    rw [typesFor_append, ← List.append_assoc]
    exact (h'.types home (h.length ▸ hhome)).trans ((h.types home hhome).append_right _)
  links home hhome assembly := by
    rw [h'.links home (h.length ▸ hhome), h.links home hhome, linksFor_append, List.reverse_append,
      List.lookup_append, Option.or_assoc]

theorem loaded_of_load {c : Load} (h : w.load c = .ok w') : w.Loaded [c] w' := by
  rcases load_eq_ok h with ⟨hnone, rfl⟩ | ⟨r, r', hr, rfl, htypes, hlinks⟩
  · have hne : ∀ home < w'.registries.length, c.home ≠ home := by
      rintro _ hhome rfl
      obtain ⟨r, hr⟩ := exists_registry? hhome
      rw [hnone] at hr
      cases hr
    refine ⟨rfl, fun home hhome => ?_, fun home hhome assembly => ?_⟩
    · rw [typesFor_singleton, if_neg (hne home hhome), List.append_nil]
    · rw [linksFor_singleton, if_neg (hne home hhome)]
      rfl
  · refine ⟨List.length_set, fun home _ => ?_, fun home _ assembly => ?_⟩
    · rw [typesFor_singleton]
      by_cases hhome : c.home = home
      · subst hhome
        rw [if_pos rfl, types_eq_of_lookup hr, types_eq_of_lookup (registry?_set_self hr r')]
        exact htypes
      · rw [if_neg hhome, List.append_nil, types_set_of_ne hhome]
    · rw [linksFor_singleton]
      by_cases hhome : c.home = home
      · subst hhome
        have hreverse : c.link?.toList.reverse = c.link?.toList := by
          cases c.link? <;> rfl
        rw [if_pos rfl, hreverse, World.link?, registry?_set_self hr r', World.link?, hr]
        exact hlinks assembly
      · rw [if_neg hhome, link?_set_of_ne hhome]
        rfl

theorem loadAll_cons_eq_ok_iff {c : Load} {rest : List Load} :
    w.loadAll (c :: rest) = .ok w'' ↔ ∃ w', w.load c = .ok w' ∧ w'.loadAll rest = .ok w'' := by
  rw [loadAll]
  cases w.load c with
  | error e => simp
  | ok w' => simp

/-- What loads leave behind, if all of them are accepted. -/
theorem loaded_of_loadAll {loads : List Load} (h : w.loadAll loads = .ok w') :
    w.Loaded loads w' := by
  induction loads generalizing w with
  | nil =>
    cases h
    exact .refl _
  | cons c rest ih =>
    obtain ⟨w₁, hfirst, hrest⟩ := loadAll_cons_eq_ok_iff.mp h
    exact (loaded_of_load hfirst).trans (ih hrest)

/-! ### Loads that are all accepted -/

/-- Loads that do not get into each other's way: only types under possible tokens come in, no two of
them under one token into one registry, and no assembly is linked twice in one registry. -/
structure Loadable (loads : List Load) : Prop where
  valid : ∀ home, ∀ t ∈ typesFor home loads, t.token.isDefinition = true
  tokens : ∀ home, ((typesFor home loads).map (·.token)).Nodup
  assemblies : ∀ home, ((linksFor home loads).map (·.1)).Nodup

theorem typesFor_perm {loads loads' : List Load} (h : loads'.Perm loads) (home : RegistryId) :
    (typesFor home loads').Perm (typesFor home loads) :=
  (h.filter _).filterMap _

theorem linksFor_perm {loads loads' : List Load} (h : loads'.Perm loads) (home : RegistryId) :
    (linksFor home loads').Perm (linksFor home loads) :=
  (h.filter _).filterMap _

theorem Loadable.perm {loads loads' : List Load} (h : Loadable loads) (hperm : loads'.Perm loads) :
    Loadable loads' where
  valid home t ht := h.valid home t ((typesFor_perm hperm home).mem_iff.mp ht)
  tokens home := ((typesFor_perm hperm home).map _).nodup_iff.mpr (h.tokens home)
  assemblies home := ((linksFor_perm hperm home).map _).nodup_iff.mpr (h.assemblies home)

theorem Loadable.of_append (loads : List Load) {more : List Load} (h : Loadable (loads ++ more)) :
    Loadable more where
  valid home t ht := h.valid home t (by
    rw [typesFor_append]
    exact List.mem_append_right _ ht)
  tokens home := by
    have htokens := h.tokens home
    rw [typesFor_append, List.map_append] at htokens
    exact (List.nodup_append.mp htokens).2.1
  assemblies home := by
    have hassemblies := h.assemblies home
    rw [linksFor_append, List.map_append] at hassemblies
    exact (List.nodup_append.mp hassemblies).2.1

theorem exists_load {c : Load} (h : ∀ t ∈ typesFor c.home [c], t.token.isDefinition = true ∧
    ∀ u ∈ w.types c.home, u.token ≠ t.token) : ∃ w', w.load c = .ok w' := by
  cases c with
  | link id assembly target => exact ⟨_, rfl⟩
  | insert id t =>
    obtain ⟨hdef, hfree⟩ := h t (by simp [typesFor, Load.home, Load.type?])
    show ∃ w', w.insert id t = .ok w'
    cases hr : w.registry? id with
    | none => exact ⟨w, insert_eq_ok_iff.mpr (.inl ⟨hr, rfl⟩)⟩
    | some r =>
      have hfree' : ∀ u ∈ r.types, u.token ≠ t.token := types_eq_of_lookup hr ▸ hfree
      obtain ⟨r', hinsert⟩ :=
        Registry.exists_insert_eq_ok_iff.mpr ⟨hdef, Registry.get?_eq_none_iff.mpr hfree'⟩
      exact ⟨_, insert_eq_ok_iff.mpr (.inr ⟨r, r', hr, hinsert, rfl⟩)⟩

theorem Loaded.mem_types {loads : List Load} (h : w.Loaded loads w') (ht : t ∈ w'.types id) :
    t ∈ w.types id ∨ t ∈ typesFor id loads := by
  have hid : id < w.registries.length := by
    apply Nat.lt_of_not_le
    intro hle
    have hnone : w'.registry? id = none := List.getElem?_eq_none (h.length ▸ hle)
    rw [World.types, hnone] at ht
    cases ht
  exact List.mem_append.mp ((h.types id hid).mem_iff.mp ht)

/-- Loads that do not get into each other's way are all accepted, if none of them brings a token that is
taken in its registry. -/
theorem exists_loadAll {loads : List Load} (h : Loadable loads)
    (hfree : ∀ id, ∀ t ∈ typesFor id loads, ∀ u ∈ w.types id, u.token ≠ t.token) :
    ∃ w', w.loadAll loads = .ok w' := by
  induction loads generalizing w with
  | nil => exact ⟨w, rfl⟩
  | cons c rest ih =>
    have hsplit : ∀ id, typesFor id (c :: rest) = typesFor id [c] ++ typesFor id rest :=
      fun id => typesFor_append id [c] rest
    obtain ⟨w₁, hfirst⟩ := exists_load (w := w) (c := c) fun t ht => by
      have ht' : t ∈ typesFor c.home (c :: rest) := hsplit c.home ▸ List.mem_append_left _ ht
      exact ⟨h.valid c.home t ht', hfree c.home t ht'⟩
    obtain ⟨w₂, hrest⟩ := ih (w := w₁) (.of_append [c] h) fun id t ht u hu => by
      rcases (loaded_of_load hfirst).mem_types hu with hu | hu
      · exact hfree id t (hsplit id ▸ List.mem_append_right _ ht) u hu
      · -- the type that has just come in has another token than all that come later
        have htokens := h.tokens id
        rw [hsplit, List.map_append] at htokens
        exact (List.nodup_append.mp htokens).2.2 _ (List.mem_map_of_mem hu) _ (List.mem_map_of_mem ht)
    exact ⟨w₂, loadAll_cons_eq_ok_iff.mpr ⟨w₁, hfirst, hrest⟩⟩

/-! ### Any order -/

theorem lookup_eq_some_iff_of_nodup {l : List (String × RegistryId)} (h : (l.map (·.1)).Nodup)
    {assembly : String} {target : RegistryId} :
    l.lookup assembly = some target ↔ (assembly, target) ∈ l := by
  rw [List.lookup_eq_some_iff]
  constructor
  · rintro ⟨before, after, rfl, -⟩
    exact List.mem_append_right _ List.mem_cons_self
  · intro hmem
    obtain ⟨before, after, rfl⟩ := List.append_of_mem hmem
    refine ⟨before, after, rfl, fun x hx => ?_⟩
    rw [List.map_append] at h
    have hne := (List.nodup_append.mp h).2.2 x.1 (List.mem_map_of_mem hx) assembly List.mem_cons_self
    simpa using Ne.symm hne

theorem types_blank (n : Nat) (home : RegistryId) : (blank n).types home = [] := by
  unfold types registry? blank
  by_cases h : home < n
  · rw [List.getElem?_replicate_of_lt h]
    rfl
  · rw [List.getElem?_eq_none (by simpa using h)]

theorem link?_blank (n : Nat) (home : RegistryId) (assembly : String) :
    (blank n).link? home assembly = none := by
  unfold link? registry? blank
  by_cases h : home < n
  · rw [List.getElem?_replicate_of_lt h]
    rfl
  · rw [List.getElem?_eq_none (by simpa using h)]
    rfl

section Blank

variable {n : Nat} {loads loads' : List Load}

theorem length_blank (n : Nat) : (blank n).registries.length = n := List.length_replicate

theorem Loaded.perm_types_of_blank (h : (blank n).Loaded loads w) (hid : id < n) :
    (w.types id).Perm (typesFor id loads) := by
  have htypes := h.types id (by rwa [length_blank])
  rwa [types_blank, List.nil_append] at htypes

theorem Loaded.link?_of_blank (h : (blank n).Loaded loads w) (hloads : Loadable loads)
    (hid : id < n) {assembly : String} {target : RegistryId} :
    w.link? id assembly = some target ↔ (assembly, target) ∈ linksFor id loads := by
  have hnodup : ((linksFor id loads).reverse.map (·.1)).Nodup :=
    ((List.reverse_perm _).map _).nodup_iff.mpr (hloads.assemblies id)
  rw [h.links id (by rwa [length_blank]), link?_blank, Option.or_none,
    lookup_eq_some_iff_of_nodup hnodup, List.mem_reverse]

theorem Loaded.absent (h : (blank n).Loaded loads w) (hid : n ≤ id) : w.registry? id = none :=
  List.getElem?_eq_none (by rwa [h.length, length_blank])

/-- Worlds into which the same came in any order match: types stand in the order of their tokens, and of
no two links for one assembly does one hide the other. -/
theorem Loaded.matches (h : (blank n).Loaded loads w) (h' : (blank n).Loaded loads' w')
    (hloads : Loadable loads) (hperm : loads'.Perm loads) : w.Matches w' where
  types id := by
    by_cases hid : id < n
    · refine List.Perm.eq_of_pairwise (fun t u _ _ htu hut => ?_) (pairwise_types w' id)
        (pairwise_types w id) ?_
      · exact absurd (Token.lt_trans htu hut) (Token.lt_irrefl t.token)
      · exact (h'.perm_types_of_blank hid).trans
          ((typesFor_perm hperm id).trans (h.perm_types_of_blank hid).symm)
    · rw [World.types, World.types, h.absent (Nat.le_of_not_lt hid), h'.absent (Nat.le_of_not_lt hid)]
  links id assembly := by
    by_cases hid : id < n
    · ext target
      rw [h'.link?_of_blank (hloads.perm hperm) hid, h.link?_of_blank hloads hid,
        (linksFor_perm hperm id).mem_iff]
    · rw [link?, link?, h.absent (Nat.le_of_not_lt hid), h'.absent (Nat.le_of_not_lt hid)]

/-- The order of loads does not matter. Into so many blank registries, loads that do not get into each
other's way come in any order: all of them are accepted, each registry holds just the types and the
links that came into it, and whatever order they came in, the registries give the same answers: by
token, by full name, in order, to references, on generated types, and on what a type could do without
instances. -/
theorem loadAll_perm (hloads : Loadable loads) (hperm : loads'.Perm loads) :
    ∃ w w', (blank n).loadAll loads = .ok w ∧ (blank n).loadAll loads' = .ok w' ∧
      (∀ home < n, (w.types home).Perm (typesFor home loads) ∧ ∀ assembly target,
        w.link? home assembly = some target ↔ (assembly, target) ∈ linksFor home loads) ∧
      ∀ home, w'.types home = w.types home ∧
        (∀ token, w'.get? home token = w.get? home token) ∧
        (∀ fullName, w'.findByName? home fullName = w.findByName? home fullName) ∧
        (∀ base, w'.resolve home base = w.resolve home base) ∧
        (∀ t, w'.isGenerated home t = w.isGenerated home t) ∧
        ∀ t, w'.classify home t = w.classify home t := by
  have hfree : ∀ loads id, ∀ t ∈ typesFor id loads, ∀ u ∈ (blank n).types id, u.token ≠ t.token := by
    intro loads id t _ u hu
    rw [types_blank] at hu
    cases hu
  obtain ⟨w, hw⟩ := exists_loadAll hloads (hfree loads)
  obtain ⟨w', hw'⟩ := exists_loadAll (hloads.perm hperm) (hfree loads')
  have hloaded := loaded_of_loadAll hw
  have hmatches := hloaded.matches (loaded_of_loadAll hw') hloads hperm
  refine ⟨w, w', hw, hw', fun home hhome => ⟨hloaded.perm_types_of_blank hhome, fun _ _ =>
    hloaded.link?_of_blank hloads hhome⟩, fun home => ?_⟩
  exact ⟨hmatches.types home, hmatches.get? home, hmatches.findByName? home, hmatches.resolve home,
    hmatches.isGenerated home, hmatches.classify home⟩

end Blank

/-- The application and the library, with one more type that has the full name of the application's
root, and with the links behind the types that need them. -/
def linkedLoads : List Load :=
  .insert 0 { TypeDef.ofClass ⟨"", "App.Root"⟩ with token := .typeDef 9 } ::
    linkedApp.types.map (.insert 0) ++ linkedLib.types.map (.insert 1) ++
      [.link 0 "lib" 1, .link 1 "app" 0]

theorem loadAll_perm_linked : Loadable linkedLoads ∧ linkedLoads.reverse.Perm linkedLoads ∧
    ∃ w, (blank 2).loadAll linkedLoads.reverse = .ok w ∧
      (w.findByName? 0 "App.Root").map (·.token) = some (.typeDef 2) ∧
      w.classify 0 linkedApp.types[0] = .allStatic ∧
      w.classify 1 linkedLib.types[1] = .unclassifiable (.cycle (.typeDef 3)) := by
  have hloads : Loadable linkedLoads := by
    refine ⟨fun home => ?_, fun home => ?_, fun home => ?_⟩ <;> rcases home with _ | _ | home
    · decide
    · decide
    · exact nofun
    · decide
    · decide
    · exact .nil
    · decide
    · decide
    · exact .nil
  have hperm : linkedLoads.reverse.Perm linkedLoads := List.reverse_perm linkedLoads
  obtain ⟨w, w', hw, hw', -, hsame⟩ := loadAll_perm (n := 2) hloads hperm
  obtain ⟨-, -, hname, -, -, hclassify⟩ := hsame 0
  obtain ⟨-, -, -, -, -, hclassify'⟩ := hsame 1
  refine ⟨hloads, hperm, w', hw', ?_, ?_, ?_⟩
  · rw [hname]
    cases hw
    decide +kernel
  · rw [hclassify]
    cases hw
    decide +kernel
  · rw [hclassify']
    cases hw
    decide +kernel

end ModuleAudit.World
