import Primer.Proofs.Target.Form
import Primer.Proofs.Target.Names

/-!
The entry point of the C++ text and the names around it. No name of a program comes to one that the text
declares of its own on the same level. Within the entry point, the call of the function named like the
program reaches that function unless one of the variables there has its name: the parameters `argc` and
`argv` are reserved, the vector `args` is not (`entryPoint_hygienic_iff`).
-/

namespace Primer

namespace Target

/-! ## The names of the text itself -/

/-- The names of the helper templates: one for the type of the elements and one for each method. -/
def helperNames : List String := (helperStem ++ "elem") :: Method.all.map (helperStem ++ ·.name)

/-- The names that the text declares of its own on the level of the program. -/
def ownNames : List String := reservedProgramName :: helperNames

structure EntryVariable where
  type : String
  name : String

/-- The parameters of the entry point. -/
def entryParameters : List EntryVariable := [⟨"int", "argc"⟩, ⟨"char**", "argv"⟩]

/-- The vector that the entry point hands to the function which it calls. -/
def entryVector : EntryVariable := ⟨type (.vector .string), "args"⟩

/-- The names that the entry point declares. -/
def entryNames : List String := (entryParameters ++ [entryVector]).map (·.name)

/-- An entry point that declares these variables and calls the function of that C++ name. -/
def entryText (parameters : List EntryVariable) (vector : EntryVariable) (callee : String) :
    List Step :=
  .newline :: Step.line ("int " ++ reservedProgramName ++ "(" ++
      ", ".intercalate (parameters.map fun v => v.type ++ " " ++ v.name) ++ ") \x7b") ++
    [.indented (Step.line "std::cout << std::boolalpha;" ++
      Step.line (vector.type ++ " " ++ vector.name ++ "(argv + 1, argv + argc);") ++
      Step.line ("return static_cast<int>(" ++ callee ++ "(" ++ vector.name ++ "));"))] ++
    Step.line "\x7d"

theorem entryPoint_eq (p : Program) :
    entryPoint p = entryText entryParameters entryVector (name p.name) := by
  have hreturn : ("return static_cast<int>(" ++ name p.name ++ "(args));" : String) =
      "return static_cast<int>(" ++ name p.name ++ "(" ++ "args" ++ "));" := by
    simp only [String.append_assoc]
    rfl
  rw [entryPoint, hreturn]
  rfl

/-- The helpers are templates of those names. -/
def DeclareHelpers (names lines : List String) : Prop :=
  List.Forall₂ (fun x line => ∃ kind rest, line = "template <typename T> " ++ kind ++ " " ++ x ++ rest)
    names lines

theorem declareHelpers : DeclareHelpers helperNames helpers := by
  refine .cons ⟨"using", " = typename std::vector<T>::value_type;", rfl⟩ ?_
  rw [List.forall₂_map_left_iff]
  refine Declared.helpers_declare.imp fun m line hline => ?_
  obtain ⟨rest, rfl⟩ := hline
  refine ⟨(Declared.ofMethod m (.struct "T")).text,
    "(" ++ (⟨!m.mutates, true, .vector (.struct "T")⟩ : Declared).text ++ " v" ++ rest, ?_⟩
  simp only [String.append_assoc]

/-! ## Names that no name comes to -/

/-- Only a `_` is ever added to a name, so that none comes to a word that is taken and ends otherwise. -/
theorem name_ne_of_isTaken {x w : String} (hw : isTaken w = true)
    (hlast : w.toList.getLast? ≠ some '_') : name x ≠ w := by
  rintro rfl
  by_cases hx : isTaken x = true
  · rw [name_of_isTaken hx] at hlast
    exact hlast (by simp)
  · rw [name_of_not_isTaken hx] at hw
    exact hx hw

theorem name_eq_iff_of_not_isTaken {x w : String} (hw : isTaken w ≠ true)
    (hlast : w.toList.getLast? ≠ some '_') : name x = w ↔ x = w := by
  constructor
  · rintro rfl
    by_cases hx : isTaken x = true
    · rw [name_of_isTaken hx] at hlast
      exact absurd (by simp) hlast
    · exact (name_of_not_isTaken hx).symm
  · rintro rfl
    exact name_of_not_isTaken hw

theorem name_not_mem_ownNames (x : String) : name x ∉ ownNames := by
  have hall : (ownNames.all fun w => isTaken w && w.toList.getLast? != some '_') = true := by
    decide
  intro hmem
  have hw := List.all_eq_true.1 hall (name x) hmem
  rw [Bool.and_eq_true, bne_iff_ne] at hw
  exact name_ne_of_isTaken hw.1 hw.2 rfl

theorem name_mem_entryNames_iff {x : String} : name x ∈ entryNames ↔ x = "args" := by
  have hparameters : (entryParameters.all fun v =>
      isTaken v.name && v.name.toList.getLast? != some '_') = true := by decide
  have hvector : name x = entryVector.name ↔ x = entryVector.name :=
    name_eq_iff_of_not_isTaken (by decide) (by decide)
  rw [entryNames, List.map_append, List.mem_append, List.map_singleton, List.mem_singleton, hvector]
  refine or_iff_right ?_
  rintro hmem
  obtain ⟨v, hv, hname⟩ := List.mem_map.1 hmem
  have hw := List.all_eq_true.1 hparameters v hv
  rw [Bool.and_eq_true, bne_iff_ne] at hw
  exact name_ne_of_isTaken hw.1 hw.2 hname.symm

theorem Clash.ne {x y : String} (h : Clash x y) : x ≠ y := by
  obtain ⟨-, rfl⟩ := h
  intro heq
  simpa using congrArg String.length heq

end Target

namespace Program

variable {p : Program}

/-- The call in the entry point reaches the function that is named like the program: no variable of the
entry point has the C++ name which is called, and among the declarations that function alone has it. -/
structure CallsEntry (p : Program) : Prop where
  uncaptured : Target.name p.name ∉ Target.entryNames
  entry : ∃ f ∈ p.functions, f.name = p.name ∧
    ∀ x ∈ p.declaredIdents, Target.name x.name = Target.name p.name → x = f.ident

theorem ident_mem_declaredIdents {f : Routine} (hf : f ∈ p.functions) :
    f.ident ∈ p.declaredIdents := by
  simp only [declaredIdents, List.mem_append, List.mem_map]
  exact .inl (.inr ⟨f, hf, rfl⟩)

theorem CallsEntry.not_clash (h : p.CallsEntry) {x : String} (hx : x ∈ p.declaredNames) :
    ¬ Target.Clash x p.name ∧ ¬ Target.Clash p.name x := by
  obtain ⟨f, -, hname, honly⟩ := h.entry
  obtain ⟨y, hy, rfl⟩ := List.mem_map.1 hx
  have hsame (heq : Target.name y.name = Target.name p.name) : y.name = p.name := by
    rw [honly y hy heq]
    exact hname
  constructor
  · intro hclash
    exact hclash.ne (hsame (Target.name_eq_name_of_clash hclash))
  · intro hclash
    exact hclash.ne (hsame (Target.name_eq_name_of_clash hclash).symm).symm

theorem WellTyped.callsEntry (h : p.WellTyped) (hargs : p.name ≠ "args")
    (hclash : ∀ x ∈ p.declaredNames, ¬ Target.Clash x p.name ∧ ¬ Target.Clash p.name x) :
    p.CallsEntry := by
  obtain ⟨f, hf, hname, -⟩ := h.entry
  refine ⟨fun hmem => hargs (Target.name_mem_entryNames_iff.1 hmem), f, hf, hname, ?_⟩
  intro x hx heq
  obtain ⟨hleft, hright⟩ := hclash x.name (List.mem_map_of_mem hx)
  rcases Target.name_eq_name_iff.1 heq with hsame | hc | hc
  · have hinj := List.inj_on_of_nodup_map h.distinct.declared
    exact hinj hx (ident_mem_declaredIdents hf) (hsame.trans hname.symm)
  · exact absurd hc hleft
  · exact absurd hc hright

/-- In the C++ text of a program that was built, no name of the program comes to that of the entry point
or of a helper. The name that the entry point calls is that of a variable there exactly if the program
is called `args`; otherwise the call reaches the function named like the program, unless another
declaration clashes with it. -/
theorem entryPoint_hygienic_iff {text : String} (h : Program.build text = .ok p) :
    Target.DeclareHelpers Target.helperNames Target.helpers ∧
    Target.entryPoint p =
      Target.entryText Target.entryParameters Target.entryVector (Target.name p.name) ∧
    (∀ x ∈ p.declaredNames, Target.name x ∉ Target.ownNames) ∧
    (Target.name p.name ∉ Target.entryNames ↔ p.name ≠ "args") ∧
    (p.CallsEntry ↔ p.name ≠ "args" ∧
      ∀ x ∈ p.declaredNames, ¬ Target.Clash x p.name ∧ ¬ Target.Clash p.name x) := by
  have hp : p.WellTyped := .of_check (check_of_build h)
  refine ⟨Target.declareHelpers, Target.entryPoint_eq p, fun x _ => Target.name_not_mem_ownNames x,
    not_congr Target.name_mem_entryNames_iff, ?_, ?_⟩
  · intro hcalls
    refine ⟨fun hargs => hcalls.uncaptured ?_, fun x hx => hcalls.not_clash hx⟩
    exact Target.name_mem_entryNames_iff.2 hargs
  · rintro ⟨hargs, hclash⟩
    exact hp.callsEntry hargs hclash

/-- A program with a reserved name that declares what C++ or the text has names for. -/
def reservedEntryText : String :=
  "program int\nstructure main\nend\nglobal algo_push : char\n" ++
    "function int(in args : vector of string) : integer\nend"

theorem entryPoint_hygienic_iff_reserved : ∃ p, Program.build reservedEntryText = .ok p ∧
    (∀ x ∈ p.declaredNames, Target.name x ∉ Target.ownNames) ∧ p.CallsEntry := by
  have hany : (Program.build reservedEntryText).toOption.any
      (fun p => p.name == "int" && !p.declaredNames.contains "int_") = true := by decide +kernel
  obtain ⟨p, hp, hwords⟩ := exists_ok_of_any hany
  simp only [Bool.and_eq_true, beq_iff_eq, Bool.not_eq_true', ← Bool.not_eq_true,
    List.contains_iff_mem] at hwords
  obtain ⟨hname, hclash⟩ := hwords
  obtain ⟨-, -, hown, -, hcalls⟩ := entryPoint_hygienic_iff hp
  refine ⟨p, hp, hown, hcalls.2 ⟨?_, fun x hx => ⟨?_, ?_⟩⟩⟩
  · rw [hname]
    decide
  · rintro ⟨hx', heq⟩
    exact Target.not_isTaken_escaped hx' (by rw [← heq, hname]; decide +kernel)
  · rintro ⟨-, rfl⟩
    exact hclash (by rwa [hname] at hx)

/-- A program that has the name of the vector in the entry point. -/
def capturedEntryText : String :=
  "program args\nfunction args(in a : vector of string) : integer\nend"

/-- The entry point calls its vector. -/
theorem entryCall_captured : ∃ p, Program.build capturedEntryText = .ok p ∧
    Target.name p.name ∈ Target.entryNames := by
  have hany : (Program.build capturedEntryText).toOption.any
      (fun p => Target.entryNames.contains (Target.name p.name)) = true := by decide +kernel
  obtain ⟨p, hp, hname⟩ := exists_ok_of_any hany
  exact ⟨p, hp, List.contains_iff_mem.1 hname⟩

end Program

end Primer
