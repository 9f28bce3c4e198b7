import ModuleAudit.World

/-!
# What a full name names

A reference is asked whether it names a full name by reading that at its last point. A registry is
asked for the full name of the reference, which joins its two parts with a point. The two agree on
names without points, short of a point in front of a name outside every namespace; a name with a point
in it is found under its full name but does not name it.

## Main definitions

* `TypeName.IsSimple`: a name without a point in it.
* `TypeRef.Bears`: a reference has a full name and is simple.

## Main statements

* `TypeName.ofText_eq_iff`: the full names that are read as a given name.
* `World.fullName_of_resolve`: what a reference by name leads to has its full name.
* `TypeRef.isNamed_agrees_iff`: which full names a reference names, where that agrees with its own full
  name, and which bases are recognised.
-/

namespace ModuleAudit

namespace TypeName

variable {n : TypeName} {fullName : String}

/-- No point stands in the name itself. The namespace may have any number of them. -/
def IsSimple (n : TypeName) : Prop := '.' ∉ n.name.toList

instance (n : TypeName) : Decidable n.IsSimple := inferInstanceAs (Decidable ('.' ∉ n.name.toList))

theorem toList_dotted (n : TypeName) : n.dotted.toList = n.space.toList ++ '.' :: n.name.toList := by
  rw [dotted, String.toList_append, String.toList_append, List.append_assoc]
  rfl

/-- A full name is read as a name where the name is simple and the full name is its own, or its own
with a point in front although the name has no namespace. -/
theorem ofText_eq_iff : ofText fullName = n ↔
    n.IsSimple ∧ (fullName = n.text ∨ n.space = "" ∧ fullName = n.dotted) := by
  constructor
  · rintro rfl
    unfold ofText
    split
    · next hsplit => exact ⟨splitLastPoint_eq_none_iff.mp hsplit, .inl rfl⟩
    · next space name hsplit =>
      obtain ⟨hchars, hpoint⟩ := splitLastPoint_eq_some hsplit
      have hdotted : fullName = dotted ⟨String.ofList space, String.ofList name⟩ := by
        apply String.ext
        rw [toList_dotted, String.toList_ofList, String.toList_ofList, hchars]
      refine ⟨by simpa [IsSimple] using hpoint, ?_⟩
      by_cases hspace : String.ofList space = ""
      · exact .inr ⟨hspace, hdotted⟩
      · exact .inl (hdotted.trans (if_neg hspace).symm)
  · rintro ⟨hsimple, h⟩
    have hdotted : ofText n.dotted = n := by
      rw [ofText, toList_dotted, splitLastPoint_append hsimple]
      simp [String.ofList_toList]
    rcases h with rfl | ⟨-, rfl⟩
    · by_cases hspace : n.space = ""
      · rw [text, if_pos hspace, ofText, splitLastPoint_eq_none_iff.mpr hsimple, ← hspace]
      · rw [text, if_neg hspace, hdotted]
    · exact hdotted

theorem text_ne_dotted (h : n.space = "") : n.text ≠ n.dotted := by
  intro heq
  have hlength := congrArg String.length heq
  rw [text, if_pos h, dotted, String.length_append, String.length_append] at hlength
  have hpoint : ".".length = 1 := rfl
  omega

end TypeName

namespace TypeRef

variable {r : TypeRef} {fullName : String}

/-- The full name is that of the reference, and its last point is the one between the two parts. -/
def Bears (r : TypeRef) (fullName : String) : Prop := r.name.IsSimple ∧ r.name.text = fullName

theorem isNamed_eq_true_iff : r.isNamed fullName = true ↔
    r.Bears fullName ∨ r.name.IsSimple ∧ r.name.space = "" ∧ fullName = r.name.dotted := by
  rw [isNamed, TypeName.reads, beq_iff_eq, eq_comm, TypeName.ofText_eq_iff, Bears, eq_comm, and_or_left]

/-- A full name that does not start with a point is named by just the references that bear it. -/
theorem isNamed_iff_bears (h : fullName.toList.head? ≠ some '.') :
    r.isNamed fullName = true ↔ r.Bears fullName := by
  rw [isNamed_eq_true_iff]
  constructor
  · rintro (hbears | ⟨-, hspace, rfl⟩)
    · exact hbears
    · rw [TypeName.toList_dotted, hspace] at h
      exact absurd rfl h
  · exact .inl

/-- A reference names the full names that agree with its own one, except that a reference whose name has
a point in it names none, not even its own. -/
theorem isNamed_iff_text_iff : (r.isNamed fullName = true ↔ r.name.text = fullName) ↔
    (r.name.IsSimple → r.name.space = "" → fullName ≠ r.name.dotted) ∧
      (¬r.name.IsSimple → r.name.text ≠ fullName) := by
  rw [isNamed_eq_true_iff, Bears]
  by_cases hsimple : r.name.IsSimple
  · simp only [hsimple, true_and, true_implies, not_true_eq_false, false_implies, and_true]
    constructor
    · rintro hiff hspace rfl
      exact TypeName.text_ne_dotted hspace (hiff.mp (.inr ⟨hspace, rfl⟩))
    · intro hne
      exact or_iff_left fun ⟨hspace, heq⟩ => hne hspace heq
  · simp [hsimple]

theorem isNamed_text_iff : r.isNamed r.name.text = true ↔ r.name.IsSimple := by
  rw [isNamed_eq_true_iff, Bears]
  constructor
  · rintro (⟨hsimple, -⟩ | ⟨hsimple, -⟩) <;> exact hsimple
  · exact fun hsimple => .inl ⟨hsimple, rfl⟩

end TypeRef

/-- What a reference leads to by name has the full name of the reference. -/
theorem World.fullName_of_resolve {w : World} {home : RegistryId} {r : TypeRef} {t : TypeDef}
    {owner : Option RegistryId} (htable : r.token.table ≠ Table.typeDef)
    (h : w.resolve home r = some (t, owner)) : t.fullName = r.name.text := by
  rcases World.resolve_eq_some_iff.mp h with
    ⟨hdef, -⟩ | ⟨-, _, _, -, -, hfind, -⟩ | ⟨-, hfind, -⟩
  · exact absurd hdef htable
  · exact (World.mem_types_of_findByName? hfind).2
  · exact (World.mem_types_of_findByName? hfind).2

namespace TypeRef

/-- Which full names a reference names: its own one if its name is simple, and, outside every namespace,
the same with a point in front. So it agrees with its own full name except on that one more, and except
that a name with a point in it does not name itself. The root and the bases of enumerations, value types
and delegates are recognised by the full name that a registry looks the reference up by, if the name is
simple. -/
theorem isNamed_agrees_iff (r : TypeRef) :
    (∀ fullName, r.isNamed fullName = true ↔
      r.Bears fullName ∨ r.name.IsSimple ∧ r.name.space = "" ∧ fullName = r.name.dotted) ∧
    (∀ fullName, (r.isNamed fullName = true ↔ r.name.text = fullName) ↔
      (r.name.IsSimple → r.name.space = "" → fullName ≠ r.name.dotted) ∧
        (¬r.name.IsSimple → r.name.text ≠ fullName)) ∧
    (r.isNamed r.name.text = true ↔ r.name.IsSimple) ∧
    (r.isRoot = true ↔ r.Bears WellKnown.object) ∧
    (∀ t : TypeDef, ((t.extending r).isEnum = true ↔ r.Bears WellKnown.enum) ∧
      ((t.extending r).isValueType = true ↔
        r.Bears WellKnown.valueType ∨ r.Bears WellKnown.enum) ∧
      ((t.extending r).isDelegate = true ↔
        r.Bears WellKnown.multicastDelegate ∨ r.Bears WellKnown.delegate)) ∧
    ∀ (w : World) (home : RegistryId) (t : TypeDef) (owner : Option RegistryId),
      r.token.table ≠ Table.typeDef → w.resolve home r = some (t, owner) →
        t.fullName = r.name.text := by
  have hbase : ∀ (t : TypeDef) (fullName : String), fullName.toList.head? ≠ some '.' →
      ((t.extending r).hasBase fullName = true ↔ r.Bears fullName) :=
    fun t fullName h => isNamed_iff_bears h
  refine ⟨fun _ => isNamed_eq_true_iff, fun _ => isNamed_iff_text_iff, isNamed_text_iff,
    isNamed_iff_bears (by decide), fun t => ⟨hbase t _ (by decide), ?_, ?_⟩,
    fun w home t owner htable h => World.fullName_of_resolve htable h⟩
  · rw [TypeDef.isValueType, TypeDef.isEnum, Bool.or_eq_true, hbase t _ (by decide),
      hbase t _ (by decide)]
  · rw [TypeDef.isDelegate, Bool.or_eq_true, hbase t _ (by decide), hbase t _ (by decide)]

/-- An application that knows the core library, and the core library with one type. -/
def coreWorld : World :=
  ⟨[Registry.empty.link WellKnown.coreLibrary 1,
    { types := [{ TypeDef.ofClass ⟨"System", "Enum"⟩ with token := .typeDef 1 }], links := []
      sorted := by decide, valid := by decide }]⟩

/-- The base of enumerations, with the namespace written into the name. -/
def joinedEnum : TypeRef := .toScope (.typeRef 1) WellKnown.coreLibrary ⟨"", "System.Enum"⟩

theorem isNamed_agrees_iff_enum :
    (system "Enum").Bears WellKnown.enum ∧ (system "Enum").isNamed "System.Enum" = true ∧
      ∃ t owner, (system "Enum").token.table ≠ Table.typeDef ∧
        coreWorld.resolve 0 (system "Enum") = some (t, owner) ∧ t.fullName = "System.Enum" := by
  obtain ⟨-, -, hself, -, -, hlookup⟩ := isNamed_agrees_iff (system "Enum")
  have hsimple : (system "Enum").name.IsSimple := by decide
  have hfound : coreWorld.resolve 0 (system "Enum") =
      some ({ TypeDef.ofClass ⟨"System", "Enum"⟩ with token := .typeDef 1 }, some 1) := by decide
  exact ⟨⟨hsimple, by decide⟩, hself.mpr hsimple, _, _, by decide, hfound,
    hlookup coreWorld 0 _ _ (by decide) hfound⟩

/-- A type that a compiler makes up for a member of an interface, and names after the two. -/
def iteratorRef : TypeRef := .toDefinition (.typeDef 2) ⟨"", "<Acme.IShape.Draw>d__1"⟩

/-- A reference need not name its own full name. One that leads to the base of enumerations by its full
name may not be recognised as it. -/
theorem not_isNamed_text :
    (iteratorRef.name.text = "<Acme.IShape.Draw>d__1" ∧
      ¬iteratorRef.isNamed "<Acme.IShape.Draw>d__1" = true) ∧
    joinedEnum.name.text = WellKnown.enum ∧
    (coreWorld.resolve 0 joinedEnum).map (·.1.fullName) = some WellKnown.enum ∧
    ¬joinedEnum.isNamed WellKnown.enum = true ∧
    ¬((TypeDef.ofClass ⟨"Acme", "Color"⟩).extending joinedEnum).isEnum = true := by
  decide

end TypeRef

end ModuleAudit
