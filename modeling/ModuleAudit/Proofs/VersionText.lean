import ModuleAudit.Framework.Version

/-!
# Which texts are version texts

A version text is a major and a minor number with a point between them. Around it there may be white
space, NUL characters behind all else, a `v` in front of the major number, and behind the minor number
anything that does not go on with a digit. One spelling more is read than that: the major number may
have a plus sign, the minor number may not.

## Main definitions

* `Framework.Numbered`: the version numbers that name a framework.
* `Version.Wraps`: a text is another one with white space around it and NUL characters behind that.
* `Version.Layout`: the parts of a version text, in order.
* `Version.Names`: a version text is laid out with a given sign and names a framework.

## Main statements

* `Version.wraps_iff`: what a text wraps is what trimming leaves of it.
* `Version.number?_eq_some_iff`: the texts that a version number is read from.
* `Framework.ofVersion_eq_ok_iff_names`: a framework is read from just the texts that name it, be it
  without a sign or with a plus sign.
* `Framework.ofVersion_pair`: nothing but the two numbers matters to what is read.
-/

namespace ModuleAudit

/-- The version numbers that name a framework. -/
inductive Framework.Numbered : Framework → Nat → Nat → Prop where
  | v1_0 : Numbered .v1_0 1 0
  | v1_1 : Numbered .v1_1 1 1
  | v2_0 (minor : Nat) : Numbered .v2_0 2 minor
  | v4_0 (minor : Nat) : Numbered .v4_0 4 minor

theorem Framework.ofVersionNumber?_eq_some_iff {major minor : Nat} {f : Framework} :
    Framework.ofVersionNumber? major minor = some f ↔ f.Numbered major minor := by
  constructor
  · intro h
    unfold Framework.ofVersionNumber? at h
    split at h
    · cases h
      exact .v1_0
    · cases h
      exact .v1_1
    · cases h
      exact .v2_0 _
    · cases h
      exact .v4_0 _
    · cases h
  · intro h
    cases h <;> rfl

/-- A non-empty run of decimal digits. -/
structure Numeral.IsRun (digits : List Char) : Prop where
  ne_nil : digits ≠ []
  isDigit : ∀ c ∈ digits, c.isDigit = true

namespace Numeral

theorem bare?_eq_some_iff_isRun {cs : List Char} {n : Nat} :
    bare? cs = some n ↔ IsRun cs ∧ value cs < 0x100000000 ∧ value cs = n := by
  rw [bare?_eq_some_iff]
  constructor
  · rintro ⟨hne, hdigits, hfits, hvalue⟩
    exact ⟨⟨hne, hdigits⟩, hfits, hvalue⟩
  · rintro ⟨⟨hne, hdigits⟩, hfits, hvalue⟩
    exact ⟨hne, hdigits, hfits, hvalue⟩

theorem IsRun.zeros {digits : List Char} (h : IsRun digits) (k : Nat) :
    IsRun (List.replicate k '0' ++ digits) where
  ne_nil := List.append_ne_nil_of_right_ne_nil _ h.ne_nil
  isDigit c hc := by
    rcases List.mem_append.mp hc with hc | hc
    · rw [List.eq_of_mem_replicate hc]
      rfl
    · exact h.isDigit c hc

theorem IsRun.exists_cons {digits : List Char} (h : IsRun digits) :
    ∃ c rest, digits = c :: rest ∧ c.isDigit = true := by
  obtain ⟨c, rest, rfl⟩ := List.exists_cons_of_ne_nil h.ne_nil
  exact ⟨c, rest, rfl, h.isDigit c List.mem_cons_self⟩

theorem IsRun.exists_concat {digits : List Char} (h : IsRun digits) :
    ∃ init c, digits = init ++ [c] ∧ c.isDigit = true := by
  obtain ⟨init, c, rfl⟩ := (List.eq_nil_or_concat digits).resolve_left h.ne_nil
  exact ⟨init, c, List.concat_eq_append, h.isDigit c (by simp)⟩

theorem ne_of_isDigit {c d : Char} (hc : c.isDigit = true) (hd : d.isDigit = false) : c ≠ d := by
  rintro rfl
  rw [hc] at hd
  cases hd

end Numeral

namespace Version

open Numeral

variable {cs core mark sign major minor tail rest : List Char}

/-! ### What is trimmed off -/

/-- A text is a core with white space around it and NUL characters behind that. The core has no white
space at its ends, and without its padding the text does not end in a NUL character. -/
def Wraps (cs core : List Char) : Prop :=
  ∃ before after padding, cs = before ++ core ++ after ++ padding ∧
    (∀ c ∈ before, Blank.isBlank c = true) ∧ (∀ c ∈ after, Blank.isBlank c = true) ∧
    (∀ c ∈ padding, c = '\x00') ∧ (∀ c ∈ (before ++ core ++ after).getLast?, c ≠ '\x00') ∧
    (∀ c ∈ core.head?, Blank.isBlank c = false) ∧ ∀ c ∈ core.getLast?, Blank.isBlank c = false

/-- A text without the NUL characters at its end and then without the white space at both ends. -/
def trimmed (cs : List Char) : List Char := Blank.trim (Blank.dropTrailing (· == '\x00') cs)

/-- What a text wraps is what trimming leaves of it. -/
theorem wraps_iff : Wraps cs core ↔ trimmed cs = core := by
  constructor
  · rintro ⟨before, after, padding, rfl, hbefore, hafter, hpadding, hnul, hhead, hlast⟩
    have hpad : ∀ c ∈ padding, (c == '\x00') = true := by simpa using hpadding
    have hinner : Blank.dropTrailing (· == '\x00') (before ++ core ++ after) =
        before ++ core ++ after :=
      Blank.dropTrailing_eq_self fun c hc => by simpa using hnul c hc
    rw [trimmed, Blank.dropTrailing_append hpad, hinner,
      Blank.trim_eq hbefore hafter hhead hlast]
  · rintro rfl
    obtain ⟨padding, hpadding, hcs⟩ := Blank.exists_dropTrailing_append (· == '\x00') cs
    generalize hinner : Blank.dropTrailing (· == '\x00') cs = inner at hcs
    obtain ⟨after, hafter, hrest⟩ :=
      Blank.exists_dropTrailing_append Blank.isBlank (inner.dropWhile Blank.isBlank)
    have hsplit : inner = inner.takeWhile Blank.isBlank ++ trimmed cs ++ after := by
      rw [trimmed, hinner, Blank.trim, List.append_assoc, ← hrest, List.takeWhile_append_dropWhile]
    refine ⟨inner.takeWhile Blank.isBlank, after, padding, ?_, ?_, hafter, ?_, ?_, ?_, ?_⟩
    · rw [← hsplit, ← hcs]
    · exact fun c hc => List.all_eq_true.mp List.all_takeWhile c hc
    · simpa using hpadding
    · rw [← hsplit, ← hinner]
      intro c hc
      simpa using Blank.eq_false_of_mem_getLast?_dropTrailing hc
    · intro c hc
      -- what is left starts where the white space in front ends
      have hhead := List.head?_dropWhile_not Blank.isBlank inner
      rw [hrest] at hhead
      rw [trimmed, hinner, Blank.trim] at hc
      rwa [List.head?_append, Option.mem_def.mp hc] at hhead
    · rw [trimmed, hinner]
      exact fun c hc => Blank.eq_false_of_mem_getLast?_dropTrailing hc

/-- Nothing is trimmed off before the first character of a text that is not white space, and nothing up
to a character that is neither white space nor NUL. -/
theorem trimmed_append {space front : List Char} {c : Char}
    (hspace : ∀ d ∈ space, Blank.isBlank d = true)
    (hfront : ∀ d ∈ (front ++ [c]).head?, Blank.isBlank d = false) (hblank : Blank.isBlank c = false)
    (hnul : c ≠ '\x00') (rest : List Char) : trimmed (space ++ (front ++ c :: rest)) =
      front ++ c :: Blank.dropTrailing Blank.isBlank (Blank.dropTrailing (· == '\x00') rest) := by
  have hpadding : Blank.dropTrailing (· == '\x00') (space ++ (front ++ c :: rest)) =
      space ++ (front ++ c :: Blank.dropTrailing (· == '\x00') rest) := by
    rw [← List.append_assoc, Blank.dropTrailing_append_cons (by simpa using hnul), List.append_assoc]
  have hkeep : ∀ rest, (front ++ c :: rest).dropWhile Blank.isBlank = front ++ c :: rest := by
    intro rest
    cases front with
    | nil => exact List.dropWhile_cons_of_neg (by simp [hblank])
    | cons d front => exact List.dropWhile_cons_of_neg (by simp [hfront d rfl])
  rw [trimmed, hpadding, Blank.trim, List.dropWhile_append_of_pos hspace, hkeep,
    Blank.dropTrailing_append_cons hblank]

/-! ### The parts of a version text -/

/-- The parts of a version text: a `v` or nothing, a sign, the digits of the major number, a point, the
digits of the minor number, and a tail that does not go on with a digit. -/
structure Layout (cs mark sign major minor tail : List Char) : Prop where
  mark_eq : mark = [] ∨ mark = ['v']
  isRun_major : IsRun major
  isRun_minor : IsRun minor
  head?_tail : ∀ c ∈ tail.head?, c.isDigit = false
  wraps : Wraps cs (mark ++ (sign ++ major ++ '.' :: (minor ++ tail)))

/-- The text is laid out as a version text with the given sign, and its two numbers, of 32 bits each,
name the framework. -/
def Names (sign cs : List Char) (f : Framework) : Prop :=
  ∃ mark major minor tail, Layout cs mark sign major minor tail ∧
    value major < 0x100000000 ∧ value minor < 0x100000000 ∧ f.Numbered (value major) (value minor)

theorem exists_mark_append (cs : List Char) :
    ∃ mark, (mark = [] ∨ mark = ['v']) ∧ cs = mark ++ dropMark cs := by
  unfold dropMark
  split
  · exact ⟨['v'], .inr rfl, rfl⟩
  · exact ⟨[], .inl rfl, rfl⟩

theorem dropMark_append (hmark : mark = [] ∨ mark = ['v']) (h : ∀ c ∈ cs.head?, c ≠ 'v') :
    dropMark (mark ++ cs) = cs := by
  rcases hmark with rfl | rfl
  · rw [List.nil_append]
    unfold dropMark
    split
    · exact absurd rfl (h 'v' rfl)
    · rfl
  · rfl

/-- A number with or without a sign does not start with a `v`. -/
theorem ne_v_of_mem_head? (hsign : sign = [] ∨ sign = ['+']) (hmajor : IsRun major) :
    ∀ c ∈ (sign ++ major ++ rest).head?, c ≠ 'v' := by
  obtain ⟨d, digits, rfl, hd⟩ := hmajor.exists_cons
  rcases hsign with rfl | rfl
  · rintro c hc
    cases hc
    exact ne_of_isDigit hd rfl
  · rintro c hc
    cases hc
    decide

theorem Layout.body_eq (h : Layout cs mark sign major minor tail) (hsign : sign = [] ∨ sign = ['+']) :
    body cs = sign ++ major ++ '.' :: (minor ++ tail) := by
  have htrimmed := wraps_iff.mp h.wraps
  show dropMark (trimmed cs) = _
  rw [htrimmed, dropMark_append h.mark_eq (ne_v_of_mem_head? hsign h.isRun_major)]

/-! ### The numbers of a version text -/

theorem splitPoint_eq_iff :
    splitPoint cs = (major, some rest) ↔ cs = major ++ '.' :: rest ∧ '.' ∉ major := by
  constructor
  · intro h
    obtain ⟨hmajor, hrest⟩ := Prod.mk.inj h
    have hpoint : '.' ∉ major := by
      intro hmem
      rw [← hmajor] at hmem
      have hkept := List.all_eq_true.mp (List.all_takeWhile (p := (· != '.'))) '.' hmem
      exact bne_iff_ne.mp hkept rfl
    refine ⟨?_, hpoint⟩
    split at hrest
    · cases hrest
    · next c rest' hdrop =>
      cases hrest
      have hc : c = '.' := by
        have hhead := List.head?_dropWhile_not (· != '.') cs
        rw [hdrop] at hhead
        simpa using hhead
      have hsplit := List.takeWhile_append_dropWhile (p := (· != '.')) (l := cs)
      rw [hmajor, hdrop, hc] at hsplit
      exact hsplit.symm
  · rintro ⟨rfl, hpoint⟩
    have hall : ∀ c ∈ major, (c != '.') = true := by
      intro c hc
      rw [bne_iff_ne]
      rintro rfl
      exact hpoint hc
    rw [splitPoint, List.takeWhile_append_of_pos hall, List.dropWhile_append_of_pos hall]
    simp

theorem takeWhile_isDigit_eq_iff (hminor : ∀ c ∈ minor, c.isDigit = true) :
    rest.takeWhile Char.isDigit = minor ↔
      ∃ tail, rest = minor ++ tail ∧ ∀ c ∈ tail.head?, c.isDigit = false := by
  constructor
  · rintro rfl
    refine ⟨rest.dropWhile Char.isDigit, (List.takeWhile_append_dropWhile).symm, fun c hc => ?_⟩
    have hhead := List.head?_dropWhile_not Char.isDigit rest
    rwa [Option.mem_def.mp hc] at hhead
  · rintro ⟨tail, rfl, htail⟩
    rw [List.takeWhile_append_of_pos hminor]
    cases tail with
    | nil => simp
    | cons c tail => simp [htail c rfl]

theorem number?_eq_some_iff_body {m n : Nat} : number? cs = some (m, n) ↔
    ∃ signed rest, body cs = signed ++ '.' :: rest ∧ '.' ∉ signed ∧ signed? signed = some m ∧
      bare? (rest.takeWhile Char.isDigit) = some n := by
  unfold number?
  constructor
  · intro h
    split at h
    · cases h
    · next signed rest hsplit =>
      obtain ⟨hbody, hpoint⟩ := splitPoint_eq_iff.mp hsplit
      obtain ⟨m', hm, h⟩ := Option.bind_eq_some_iff.mp h
      obtain ⟨n', hn, h⟩ := Option.bind_eq_some_iff.mp h
      cases h
      exact ⟨signed, rest, hbody, hpoint, hm, hn⟩
  · rintro ⟨signed, rest, hbody, hpoint, hm, hn⟩
    rw [splitPoint_eq_iff.mpr ⟨hbody, hpoint⟩]
    simp [hm, hn]

theorem point_not_mem (hsign : sign = [] ∨ sign = ['+']) (hmajor : IsRun major) :
    '.' ∉ sign ++ major := by
  intro hmem
  rcases List.mem_append.mp hmem with hmem | hmem
  · rcases hsign with rfl | rfl
    · cases hmem
    · exact absurd hmem (by decide)
  · exact absurd (hmajor.isDigit '.' hmem) (by decide)

/-- A version number is read from the texts that are laid out as version texts, be it without a sign or
with a plus sign, if both numbers fit. -/
theorem number?_eq_some_iff {m n : Nat} : number? cs = some (m, n) ↔
    ∃ mark sign major minor tail, (sign = [] ∨ sign = ['+']) ∧
      Layout cs mark sign major minor tail ∧ value major < 0x100000000 ∧ value major = m ∧
      value minor < 0x100000000 ∧ value minor = n := by
  rw [number?_eq_some_iff_body]
  constructor
  · rintro ⟨signed, rest, hbody, -, hm, hn⟩
    obtain ⟨sign, major, hsign, rfl, hmajor⟩ := signed?_eq_some_iff.mp hm
    obtain ⟨hmajor, hm⟩ := bare?_eq_some_iff_isRun.mp hmajor
    obtain ⟨hminor, hn, hvalue⟩ := bare?_eq_some_iff_isRun.mp hn
    obtain ⟨tail, hrest, htail⟩ := (takeWhile_isDigit_eq_iff hminor.isDigit).mp rfl
    obtain ⟨mark, hmark, htrimmed⟩ := exists_mark_append (trimmed cs)
    have hwraps : Wraps cs (mark ++ (sign ++ major ++ '.' :: (rest.takeWhile Char.isDigit ++ tail))) := by
      rw [wraps_iff, ← hrest, ← hbody]
      exact htrimmed
    exact ⟨mark, sign, major, _, tail, hsign, ⟨hmark, hmajor, hminor, htail, hwraps⟩, hm.1, hm.2, hn,
      hvalue⟩
  · rintro ⟨mark, sign, major, minor, tail, hsign, h, hm, rfl, hn, rfl⟩
    refine ⟨sign ++ major, minor ++ tail, h.body_eq hsign, point_not_mem hsign h.isRun_major, ?_, ?_⟩
    · exact signed?_eq_some_iff.mpr
        ⟨sign, major, hsign, rfl, bare?_eq_some_iff_isRun.mpr ⟨h.isRun_major, hm, rfl⟩⟩
    · rw [(takeWhile_isDigit_eq_iff h.isRun_minor.isDigit).mpr ⟨tail, rfl, h.head?_tail⟩]
      exact bare?_eq_some_iff_isRun.mpr ⟨h.isRun_minor, hn, rfl⟩

/-- The numbers that are read from a text without a sign are those of its two runs of digits. -/
theorem Layout.number?_eq_some_iff (h : Layout cs mark [] major minor tail) {m n : Nat} :
    number? cs = some (m, n) ↔ (value major < 0x100000000 ∧ value major = m) ∧
      value minor < 0x100000000 ∧ value minor = n := by
  have hsplit : splitPoint (body cs) = (major, some (minor ++ tail)) :=
    splitPoint_eq_iff.mpr ⟨h.body_eq (.inl rfl), point_not_mem (.inl rfl) h.isRun_major⟩
  have hminor : (minor ++ tail).takeWhile Char.isDigit = minor :=
    (takeWhile_isDigit_eq_iff h.isRun_minor.isDigit).mpr ⟨tail, rfl, h.head?_tail⟩
  have hread : ∀ {digits : List Char} {n : Nat}, IsRun digits →
      (bare? digits = some n ↔ value digits < 0x100000000 ∧ value digits = n) := by
    intro digits n hdigits
    rw [bare?_eq_some_iff_isRun]
    exact and_iff_right hdigits
  rw [← hread h.isRun_major, ← hread h.isRun_minor, number?, hsplit]
  simp only [signed?_eq_bare? h.isRun_major.isDigit, hminor]
  constructor
  · intro hnumber
    obtain ⟨m', hm, hnumber⟩ := Option.bind_eq_some_iff.mp hnumber
    obtain ⟨n', hn, hnumber⟩ := Option.bind_eq_some_iff.mp hnumber
    cases hnumber
    exact ⟨hm, hn⟩
  · rintro ⟨hm, hn⟩
    rw [hm, hn]
    rfl

/-- A text with white space before a number and anything behind it that does not go on with a digit is
laid out as a version text. What is trimmed off behind does not reach the digits. -/
theorem exists_layout {space : List Char} (hspace : ∀ c ∈ space, Blank.isBlank c = true)
    (hmark : mark = [] ∨ mark = ['v']) (hmajor : IsRun major) (hminor : IsRun minor)
    (hrest : ∀ c ∈ rest.head?, c.isDigit = false) : ∃ tail,
    Layout (space ++ (mark ++ (major ++ '.' :: (minor ++ rest)))) mark [] major minor tail := by
  obtain ⟨init, c, rfl, hc⟩ := hminor.exists_concat
  obtain ⟨d, digits, rfl, hd⟩ := hmajor.exists_cons
  have hfront : ∀ e ∈ (mark ++ (d :: digits ++ '.' :: init) ++ [c]).head?,
      Blank.isBlank e = false := by
    rcases hmark with rfl | rfl
    · rintro _ ⟨⟩
      exact Blank.isBlank_eq_false_of_isDigit hd
    · rintro _ ⟨⟩
      decide
  have htrimmed := trimmed_append hspace hfront (Blank.isBlank_eq_false_of_isDigit hc)
    (ne_of_isDigit hc rfl) rest
  refine ⟨Blank.dropTrailing Blank.isBlank (Blank.dropTrailing (· == '\x00') rest), hmark, hmajor,
    hminor, fun e he => hrest e ?_, wraps_iff.mpr ?_⟩
  · exact Blank.mem_head?_of_dropTrailing (Blank.mem_head?_of_dropTrailing he)
  · simpa using htrimmed

/-- A text without a sign is not laid out with one. -/
theorem Layout.not_signed {mark' major' minor' tail' : List Char}
    (h : Layout cs mark [] major minor tail) : ¬Layout cs mark' ['+'] major' minor' tail' := by
  intro h'
  have hbody := (h.body_eq (.inl rfl)).symm.trans (h'.body_eq (.inr rfl))
  obtain ⟨c, digits, rfl, hc⟩ := h.isRun_major.exists_cons
  exact ne_of_isDigit hc rfl (List.cons.inj hbody).1

end Version

namespace Framework

open Numeral Version

variable {version : String} {f : Framework}

theorem ofVersion_eq_ok_iff : ofVersion version = .ok f ↔ ofVersion? version = some f := by
  unfold ofVersion
  cases ofVersion? version <;> simp

theorem ofVersion_eq_error (h : ∀ f, ofVersion version ≠ .ok f) :
    ofVersion version = .error (.unknownFramework version) := by
  unfold ofVersion at h ⊢
  cases hread : ofVersion? version with
  | none => rfl
  | some f => exact absurd (by rw [hread]) (h f)

theorem ofVersion?_eq_some_iff : ofVersion? version = some f ↔
    ∃ m n, number? version.toList = some (m, n) ∧ f.Numbered m n := by
  unfold ofVersion?
  constructor
  · intro h
    obtain ⟨⟨m, n⟩, hnumber, h⟩ := Option.bind_eq_some_iff.mp h
    exact ⟨m, n, hnumber, ofVersionNumber?_eq_some_iff.mp h⟩
  · rintro ⟨m, n, hnumber, h⟩
    rw [hnumber]
    exact ofVersionNumber?_eq_some_iff.mpr h

/-- A framework is read from exactly the texts that name it, be it without a sign or with a plus sign
in front of the major number, and no text does both. -/
theorem ofVersion_eq_ok_iff_names :
    (ofVersion version = .ok f ↔ Names [] version.toList f ∨ Names ['+'] version.toList f) ∧
      ¬(Names [] version.toList f ∧ Names ['+'] version.toList f) := by
  constructor
  · rw [ofVersion_eq_ok_iff, ofVersion?_eq_some_iff]
    constructor
    · rintro ⟨m, n, hnumber, hf⟩
      obtain ⟨mark, sign, major, minor, tail, hsign, hlayout, hm, rfl, hn, rfl⟩ :=
        number?_eq_some_iff.mp hnumber
      rcases hsign with rfl | rfl
      · exact .inl ⟨mark, major, minor, tail, hlayout, hm, hn, hf⟩
      · exact .inr ⟨mark, major, minor, tail, hlayout, hm, hn, hf⟩
    · have hread : ∀ sign, (sign = [] ∨ sign = ['+']) → Names sign version.toList f →
          ∃ m n, number? version.toList = some (m, n) ∧ f.Numbered m n := by
        rintro sign hsign ⟨mark, major, minor, tail, hlayout, hm, hn, hf⟩
        exact ⟨_, _, number?_eq_some_iff.mpr
          ⟨mark, sign, major, minor, tail, hsign, hlayout, hm, rfl, hn, rfl⟩, hf⟩
      rintro (h | h)
      · exact hread [] (.inl rfl) h
      · exact hread ['+'] (.inr rfl) h
  · rintro ⟨⟨_, _, _, _, hplain, -⟩, ⟨_, _, _, _, hsigned, -⟩⟩
    exact hplain.not_signed hsigned

/-- A plus sign is read over, though a version text has none. -/
theorem ofVersion_signed : ofVersion "v+4.0" = .ok .v4_0 ∧
    ∀ mark major minor tail, ¬Layout "v+4.0".toList mark [] major minor tail := by
  refine ⟨ofVersion_eq_ok_iff.mpr (by decide), fun mark major minor tail h => ?_⟩
  have hbody : ['+', '4', '.', '0'] = major ++ '.' :: (minor ++ tail) :=
    (by decide : body "v+4.0".toList = _).symm.trans (h.body_eq (.inl rfl))
  obtain ⟨c, digits, rfl, hc⟩ := h.isRun_major.exists_cons
  exact ne_of_isDigit hc rfl (List.cons.inj hbody).1.symm

/-- Nothing but the two numbers matters to what is read. White space in front, a `v` or none, leading
zeros and whatever follows the minor number, as long as it does not go on with a digit, are the same to
the answer: the framework of the pair of numbers if there is one and both numbers fit 32 bits, and
otherwise the text itself, as it came, for an unknown framework. -/
theorem ofVersion_pair {space mark major minor rest : List Char} (k l : Nat)
    (hspace : ∀ c ∈ space, Blank.isBlank c = true) (hmark : mark = [] ∨ mark = ['v'])
    (hmajor : IsRun major) (hminor : IsRun minor) (hrest : ∀ c ∈ rest.head?, c.isDigit = false)
    (hversion : version.toList = space ++ (mark ++ (List.replicate k '0' ++ major ++
      '.' :: (List.replicate l '0' ++ minor ++ rest)))) :
    (∀ f, ofVersion version = .ok f ↔ value major < 0x100000000 ∧ value minor < 0x100000000 ∧
      f.Numbered (value major) (value minor)) ∧
    ((¬∃ f : Framework, value major < 0x100000000 ∧ value minor < 0x100000000 ∧
      f.Numbered (value major) (value minor)) →
        ofVersion version = .error (.unknownFramework version)) := by
  obtain ⟨tail, hlayout⟩ := exists_layout hspace hmark (hmajor.zeros k) (hminor.zeros l) hrest
  rw [← hversion] at hlayout
  have hread : ∀ f, ofVersion version = .ok f ↔ value major < 0x100000000 ∧
      value minor < 0x100000000 ∧ f.Numbered (value major) (value minor) := by
    intro f
    rw [ofVersion_eq_ok_iff, ofVersion?_eq_some_iff]
    simp only [hlayout.number?_eq_some_iff, value_zeros]
    constructor
    · rintro ⟨m, n, ⟨⟨hm, rfl⟩, hn, rfl⟩, hf⟩
      exact ⟨hm, hn, hf⟩
    · rintro ⟨hm, hn, hf⟩
      exact ⟨_, _, ⟨⟨hm, rfl⟩, hn, rfl⟩, hf⟩
  refine ⟨hread, fun hnone => ofVersion_eq_error fun f hf => hnone ⟨f, (hread f).mp hf⟩⟩

theorem ofVersion_pair_padded :
    ofVersion "\t\u00a0v0002.050727.42\x00 SP1 \x00\x00" = .ok .v2_0 ∧
      ofVersion " 3.5\x00" = .error (.unknownFramework " 3.5\x00") := by
  have hspace : ∀ c ∈ ['\t', '\u00a0'], Blank.isBlank c = true := List.all_eq_true.mp rfl
  have hrun : ∀ (c : Char) (digits : List Char), (c :: digits).all Char.isDigit = true →
      IsRun (c :: digits) := fun c digits hall => ⟨List.cons_ne_nil c digits, List.all_eq_true.mp hall⟩
  constructor
  · have hversion : "\t\u00a0v0002.050727.42\x00 SP1 \x00\x00".toList = ['\t', '\u00a0'] ++
        (['v'] ++ (List.replicate 3 '0' ++ ['2'] ++ '.' :: (List.replicate 1 '0' ++
          ['5', '0', '7', '2', '7'] ++ '.' :: "42\x00 SP1 \x00\x00".toList))) := by decide
    refine ((ofVersion_pair 3 1 hspace (.inr rfl) (hrun '2' [] rfl) (hrun '5' ['0', '7', '2', '7'] rfl)
      ?_ hversion).1 .v2_0).mpr ⟨by decide, by decide, .v2_0 _⟩
    rintro _ ⟨⟩
    rfl
  · have hversion : " 3.5\x00".toList = [' '] ++ ([] ++ (List.replicate 0 '0' ++ ['3'] ++
        '.' :: (List.replicate 0 '0' ++ ['5'] ++ ['\x00']))) := by decide
    have hblank : ∀ c ∈ [' '], Blank.isBlank c = true := List.all_eq_true.mp rfl
    refine (ofVersion_pair 0 0 hblank (.inl rfl) (hrun '3' [] rfl) (hrun '5' [] rfl) ?_ hversion).2 ?_
    · rintro _ ⟨⟩
      rfl
    · rintro ⟨f, -, -, hf⟩
      have hnone : ofVersionNumber? 3 5 = some f := ofVersionNumber?_eq_some_iff.mpr hf
      cases hnone

end Framework

end ModuleAudit
