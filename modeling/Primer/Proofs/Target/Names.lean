import Primer.Build
import Primer.Proofs.Typing.Check

/-!
When the C++ names of a program are distinct. A name that is taken gets a `_` at its end, whatever else
the program declares. Names that start like a helper keep doing so, but a reserved word and the same
word with a `_` come to one name (`name_eq_name_iff`), so that a program which declares both in one
place has two declarations of one name (`targetNames_distinct_iff`).
-/

namespace Primer

namespace Target

/-- The words that give up their name without making way for the name that they get. -/
def escapedWords : List String := reservedProgramName :: reserved

/-- The first name gets the second one, which keeps its own. -/
def Clash (x y : String) : Prop := x ∈ escapedWords ∧ y = x ++ "_"

theorem isTaken_iff {x : String} :
    isTaken x = true ↔ x ∈ escapedWords ∨ helperStem.toList <+: x.toList := by
  simp only [isTaken, escapedWords, Bool.or_eq_true, List.contains_iff_mem, beq_iff_eq,
    List.isPrefixOf_iff_prefix, List.mem_cons, or_comm (a := x ∈ reserved)]

theorem name_of_isTaken {x : String} (h : isTaken x = true) : name x = x ++ "_" := if_pos h

theorem name_of_not_isTaken {x : String} (h : isTaken x ≠ true) : name x = x := if_neg h

/-- No reserved word ends in a `_`. -/
theorem not_isTaken_escaped {x : String} (h : x ∈ escapedWords) : isTaken (x ++ "_") ≠ true := by
  have hall : (escapedWords.all fun w => w.toList.getLast? != some '_' &&
      !helperStem.toList.isPrefixOf (w.toList ++ ['_'])) = true := by decide
  have hwords {w : String} (hw : w ∈ escapedWords) := List.all_eq_true.1 hall w hw
  simp only [Bool.and_eq_true, bne_iff_ne, Bool.not_eq_true', ← Bool.not_eq_true,
    List.isPrefixOf_iff_prefix] at hwords
  rw [ne_eq, isTaken_iff, String.toList_append]
  rintro (hword | hstem)
  -- the longer word would be one of the table that ends in a `_`
  · exact (hwords hword).1 (by simp)
  · exact (hwords h).2 hstem

theorem name_eq_name_of_clash {x y : String} (h : Clash x y) : name x = name y := by
  obtain ⟨hx, rfl⟩ := h
  rw [name_of_isTaken (isTaken_iff.2 (.inl hx)), name_of_not_isTaken (not_isTaken_escaped hx)]

/-- A name that is taken comes to another one that is not only by a clash: what follows the stem of the
helpers is taken whatever it ends in. -/
theorem clash_of_append_eq {x y : String} (hx : isTaken x = true) (hy : isTaken y ≠ true)
    (h : x ++ "_" = y) : Clash x y := by
  rcases isTaken_iff.1 hx with hword | hstem
  · exact ⟨hword, h.symm⟩
  · refine absurd (isTaken_iff.2 (.inr ?_)) hy
    rw [← h, String.toList_append]
    exact hstem.trans (List.prefix_append _ _)

theorem name_eq_name_iff {x y : String} : name x = name y ↔ x = y ∨ Clash x y ∨ Clash y x := by
  constructor
  · intro h
    by_cases hx : isTaken x = true <;> by_cases hy : isTaken y = true
    · rw [name_of_isTaken hx, name_of_isTaken hy] at h
      exact .inl ((String.append_left_inj "_").1 h)
    · rw [name_of_isTaken hx, name_of_not_isTaken hy] at h
      exact .inr (.inl (clash_of_append_eq hx hy h))
    · rw [name_of_not_isTaken hx, name_of_isTaken hy] at h
      exact .inr (.inr (clash_of_append_eq hy hx h.symm))
    · rw [name_of_not_isTaken hx, name_of_not_isTaken hy] at h
      exact .inl h
  · rintro (rfl | h | h)
    · rfl
    · exact name_eq_name_of_clash h
    · exact (name_eq_name_of_clash h).symm

end Target

namespace Program

variable {p : Program}

def declaredNames (p : Program) : List String := p.declaredIdents.map (·.name)

/-- The names that are visible together: those of the program, also with the parameters and locals of a
routine, and the members of a structure. -/
def nameSpaces (p : Program) : List (List String) :=
  p.declaredNames :: p.routines.map (fun r => p.declaredNames ++ r.symbols.map (·.name)) ++
    p.structures.map (·.members.map (·.name))

/-- No two names that are visible together have one C++ name, so that no declaration of the C++ text
repeats another one of its scope and none hides one of another name. -/
structure TargetNamesDistinct (p : Program) : Prop where
  visible : ∀ names ∈ p.nameSpaces, ∀ x ∈ names, ∀ y ∈ names, x ≠ y → Target.name x ≠ Target.name y
  declared : (p.declaredNames.map Target.name).Nodup
  symbols : ∀ r ∈ p.routines, (r.symbols.map (Target.name ·.name)).Nodup
  members : ∀ s ∈ p.structures, (s.members.map (Target.name ·.name)).Nodup

theorem mem_nameSpaces {names : List String} : names ∈ p.nameSpaces ↔ names = p.declaredNames ∨
    (∃ r ∈ p.routines, p.declaredNames ++ r.symbols.map (·.name) = names) ∨
      ∃ s ∈ p.structures, s.members.map (·.name) = names := by
  simp [nameSpaces]

theorem check_of_build {text : String} (h : Program.build text = .ok p) : p.check = [] := by
  unfold Program.build at h
  split at h
  · cases h
  · split at h
    case isTrue hcheck =>
      cases h
      exact List.isEmpty_iff.1 hcheck
    · cases h

/-- Distinct names stay distinct where those that are visible together do. -/
theorem TargetNamesDistinct.of_visible (hp : p.DistinctNames)
    (h : ∀ names ∈ p.nameSpaces, ∀ x ∈ names, ∀ y ∈ names, x ≠ y → Target.name x ≠ Target.name y) :
    p.TargetNamesDistinct := by
  have hinj {names : List String} (hmem : names ∈ p.nameSpaces) {l : List String} (hl : l ⊆ names)
      (hnodup : l.Nodup) : (l.map Target.name).Nodup := by
    refine hnodup.map_on fun x hx y hy hxy => ?_
    by_contra hne
    exact h names hmem x (hl hx) y (hl hy) hne hxy
  refine ⟨h, ?_, fun r hr => ?_, fun s hs => ?_⟩
  · exact hinj (mem_nameSpaces.2 (.inl rfl)) (List.Subset.refl _) hp.declared
  · have hr' := hinj (mem_nameSpaces.2 (.inr (.inl ⟨r, hr, rfl⟩))) (List.subset_append_right _ _)
      (hp.symbols r hr)
    rwa [List.map_map] at hr'
  · have hs' := hinj (mem_nameSpaces.2 (.inr (.inr ⟨s, hs, rfl⟩))) (List.Subset.refl _)
      (hp.members s hs)
    rwa [List.map_map] at hs'

/-- The C++ names of a program that was built are distinct exactly if nowhere a word that C++ reserves
is visible together with the same word and a `_`. -/
theorem targetNames_distinct_iff {text : String} (h : Program.build text = .ok p) :
    p.TargetNamesDistinct ↔ ∀ names ∈ p.nameSpaces, ∀ w ∈ Target.escapedWords,
      ¬ (w ∈ names ∧ w ++ "_" ∈ names) := by
  constructor
  · rintro hp names hnames w hw ⟨hmem, hmem'⟩
    refine hp.visible names hnames w hmem _ hmem' ?_ (Target.name_eq_name_of_clash ⟨hw, rfl⟩)
    intro heq
    simpa using congrArg String.length heq
  · intro hwords
    refine .of_visible (.of_check (check_of_build h)) fun names hnames x hx y hy hne heq => ?_
    rcases Target.name_eq_name_iff.1 heq with rfl | ⟨hw, rfl⟩ | ⟨hw, rfl⟩
    · exact hne rfl
    · exact hwords names hnames x hw ⟨hx, hy⟩
    · exact hwords names hnames y hw ⟨hy, hx⟩

/-- A program with names that are taken, one of them beside the name with a `_` that it gets. -/
def takenNamesText : String :=
  "program t\nglobal int : char\nfunction t(in args : vector of string) : integer\n" ++
    "local algo_x : char\nlocal algo_x_ : char\nend"

theorem targetNames_distinct_iff_taken :
    ∃ p, Program.build takenNamesText = .ok p ∧ p.TargetNamesDistinct := by
  have hwords : (match Program.build takenNamesText with
      | .ok p => p.nameSpaces.all fun names =>
        Target.escapedWords.all fun w => !(names.contains w && names.contains (w ++ "_"))
      | .error _ => false) = true := by decide +kernel
  cases hp : Program.build takenNamesText with
  | error e => simp only [hp, Bool.false_eq_true] at hwords
  | ok p =>
    simp only [hp] at hwords
    refine ⟨p, rfl, (targetNames_distinct_iff hp).2 ?_⟩
    simpa [imp_iff_not_or] using hwords

/-- A program with a reserved word and the same word with a `_` among the locals of a function. -/
def clashingNamesText : String :=
  "program t\nfunction t(in args : vector of string) : integer\nlocal int : char\n" ++
    "local int_ : char\nend"

/-- The two locals have one name in C++. -/
theorem targetNames_clash : ∃ p, Program.build clashingNamesText = .ok p ∧
    ∃ r ∈ p.routines, ¬ (r.symbols.map (Target.name ·.name)).Nodup := by
  have hclash : (match Program.build clashingNamesText with
      | .ok p => p.routines.any fun r => !decide (r.symbols.map (Target.name ·.name)).Nodup
      | .error _ => false) = true := by decide +kernel
  cases hp : Program.build clashingNamesText with
  | error e => simp only [hp, Bool.false_eq_true] at hclash
  | ok p =>
    simp only [hp] at hclash
    exact ⟨p, rfl, by simpa using hclash⟩

end Program

end Primer
