import Primer.Grammar.Program
import Primer.Proofs.Typing.Check
import Primer.Proofs.Typing.Signatures

/-!
The order of declarations. A look-up takes the first item of a name; where no name is declared twice there
is only one, and the order of structures, globals, functions and procedures does not matter: names stand
for the same, and checking finds the same problems in another order (`Program.check_reordered`).
-/

namespace Primer

/-- Items with distinct names are found in any order. -/
theorem find?_eq_of_perm {l l' : List α} {f : α → String} (h : l.Perm l') (hnodup : (l.map f).Nodup)
    (name : String) : l.find? (f · == name) = l'.find? (f · == name) := by
  ext a
  rw [find?_eq_some_iff_of_nodup hnodup,
    find?_eq_some_iff_of_nodup ((h.map f).nodup_iff.1 hnodup), h.mem_iff]

namespace Program

/-- The second program declares the same as the first, its constants in the same order. -/
structure Reordered (p q : Program) : Prop where
  ident : p.ident = q.ident
  structures : p.structures.Perm q.structures
  constants : p.constants = q.constants
  globals : p.globals.Perm q.globals
  functions : p.functions.Perm q.functions
  procedures : p.procedures.Perm q.procedures

namespace Reordered

variable {p q : Program} (h : p.Reordered q)
include h

theorem routines : p.routines.Perm q.routines := h.functions.append h.procedures

theorem declaredIdents : p.declaredIdents.Perm q.declaredIdents := by
  have hconstants : p.constants.map (·.symbol.ident) = q.constants.map (·.symbol.ident) := by
    rw [h.constants]
  have hglobals := ((h.structures.map (·.ident)).append (.of_eq hconstants)).append
    (h.globals.map (·.ident))
  exact (hglobals.append (h.functions.map (·.ident))).append (h.procedures.map (·.ident))

variable (hnames : (p.declaredIdents.map (·.name)).Nodup)
include hnames

theorem nodup : (q.declaredIdents.map (·.name)).Nodup :=
  (h.declaredIdents.map (·.name)).nodup_iff.1 hnames

theorem function?_eq (name : String) : p.function? name = q.function? name := by
  apply find?_eq_of_perm h.functions
  have hsublist : (p.functions.map (·.ident)).Sublist p.declaredIdents :=
    (List.sublist_append_right _ _).trans (List.sublist_append_left _ _)
  have hfunctions := hnames.sublist (hsublist.map (·.name))
  rwa [List.map_map] at hfunctions

/-- Every name stands for the same. -/
theorem sameNames : p.SameNames q := by
  rw [map_name_declaredIdents, List.nodup_append, List.nodup_append, List.nodup_append] at hnames
  obtain ⟨hstructures, ⟨-, ⟨hglobals, hroutines, -⟩, -⟩, -⟩ := hnames
  constructor
  · exact find?_eq_of_perm h.structures hstructures
  · intro name
    rw [constant?, constant?, h.constants]
  · exact find?_eq_of_perm h.globals hglobals
  · intro name
    rw [routine?_eq_find?, routine?_eq_find?, find?_eq_of_perm h.routines hroutines]

theorem checkEntry_eq : p.checkEntry = q.checkEntry := by
  have hname : p.name = q.name := by rw [name, name, h.ident]
  have hentry : p.entry? = q.entry? := by
    unfold entry?
    rw [hname, h.function?_eq hnames]
  rw [checkEntry, checkEntry, hentry, hname, h.ident]

theorem check_perm : p.check.Perm q.check := by
  have hsame := h.sameNames hnames
  have hname : p.checkName = q.checkName := by rw [checkName, checkName, name, name, h.ident]
  rw [check, check, checkUnique_iff.2 hnames, checkUnique_iff.2 (h.nodup hnames), hname,
    hsame.checkStructure_eq, hsame.checkConstants_eq, hsame.checkSymbol_eq, hsame.checkRoutine_eq,
    h.checkEntry_eq hnames, h.constants]
  have hstructures := (List.Perm.refl (q.checkName ++ [])).append
    (h.structures.flatMap_right q.checkStructure)
  have hglobals := (hstructures.append_right (q.checkConstants [] q.constants)).append
    (h.globals.flatMap_right q.checkSymbol)
  exact (hglobals.append (h.routines.flatMap_right q.checkRoutine)).append_right q.checkEntry

end Reordered

/-- **Order does not matter.** Where no two declarations share a name, checking finds the same problems
at the same places whatever the order of structures, globals, functions and procedures, and every
expression has the same type in the scope of the same routine. -/
theorem check_reordered {p q : Program} (h : p.Reordered q)
    (hnames : (p.declaredIdents.map (·.name)).Nodup) :
    q.check.Perm p.check ∧
      ∀ (r : Option Routine) (e : Expr), Scope.typeOf ⟨q, r⟩ e = Scope.typeOf ⟨p, r⟩ e :=
  ⟨(h.check_perm hnames).symm, fun r e => ((h.sameNames hnames).typeOf_eq r e).symm⟩

/-- Two structures and two procedures, each with a problem. -/
def problemsText : String :=
  "program t\nstructure a\nx : real\nx : real\nend\nstructure b\ny : a\ny : a\nend\n" ++
    "procedure q(in v : b)\nprint v.y\nend\nprocedure r()\nq(1)\nend"

theorem check_reordered_problems : ∃ p q, Program.parse problemsText = .ok p ∧ p.Reordered q ∧
    p.check.map (·.position.toEnd) = [99, 68, 30, 8, 122] ∧
    q.check.map (·.position.toEnd) = [68, 99, 8, 30, 122] ∧ q.check.Perm p.check ∧
    ∀ r e, Scope.typeOf ⟨q, r⟩ e = Scope.typeOf ⟨p, r⟩ e := by
  have hany : (Program.parse problemsText).toOption.any (fun p =>
      (p.declaredIdents.map (·.name)).Nodup ∧
      p.check.map (·.position.toEnd) = [99, 68, 30, 8, 122] ∧
      { p with structures := p.structures.reverse, procedures := p.procedures.reverse : Program
        }.check.map (·.position.toEnd) = [68, 99, 8, 30, 122]) = true := by decide +kernel
  obtain ⟨p, hp, hproblems⟩ := exists_ok_of_any hany
  rw [decide_eq_true_iff] at hproblems
  obtain ⟨hnames, hcheck, hcheck'⟩ := hproblems
  have h : p.Reordered
      { p with structures := p.structures.reverse, procedures := p.procedures.reverse } :=
    ⟨rfl, p.structures.reverse_perm.symm, rfl, .refl _, .refl _, p.procedures.reverse_perm.symm⟩
  exact ⟨p, _, hp, h, hcheck, hcheck', check_reordered h hnames⟩

end Program

end Primer
