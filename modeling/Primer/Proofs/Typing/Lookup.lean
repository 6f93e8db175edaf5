import Mathlib.Data.List.Pairwise
import Primer.Grammar.Program
import Primer.Program.Edit
import Primer.Proofs.Typing.Check
import Primer.Proofs.Typing.Nodes

/-!
Look-ups in a program without problems. A look-up takes the first item of a name, and checking finds names
that are used twice, in passes of their own over the names of a program, a structure or a routine. So no
declaration is hidden by another one of its name, and a call can only mean one routine
(`Program.unambiguous`).
-/

namespace Primer

/-! ## Names of the collections -/

def Collection.all : List Collection := [.structures, .constants, .globals, .functions, .procedures]

theorem Collection.mem_all (k : Collection) : k ∈ Collection.all := by
  cases k <;> decide

/-- The names of the items in a collection. -/
def Program.names (p : Program) : Collection → List String
  | .structures => p.structures.map (·.name)
  | .constants => p.constants.map (·.name)
  | .globals => p.globals.map (·.name)
  | .functions => p.functions.map (·.name)
  | .procedures => p.procedures.map (·.name)

/-- The name is declared once, in that collection and in no other one. -/
def Program.DeclaredOnce (p : Program) (k : Collection) (name : String) : Prop :=
  ∀ k', (p.names k').count name = if k' = k then 1 else 0

/-! ## Calls -/

/-- The name at the start of a path, if it is called there. -/
def Path.callee? : Path → Option Ident
  | .var _ => none
  | .call f _ => some f
  | .index base _ | .member base _ | .method base _ _ => base.callee?

def Expr.callee? : Expr → Option Ident
  | .path q => q.callee?
  | .literal _ | .not _ _ | .binary _ _ _ _ => none

/-- The name that an instruction calls, apart from what the instructions and expressions within it do. -/
def Instruction.callee? : Instruction → Option Ident
  | .read target | .assign _ target _ => target.callee?
  | .evaluate e => e.callee?
  | .print _ _ | .result _ _ | .branch _ _ _ _ | .whileLoop _ _ _ | .untilLoop _ _ _
  | .forLoop _ _ _ _ _ | .guarded _ _ _ => none

/-- The names that a routine calls at the start of a path, in its instructions and in the expressions of
these, at any depth. -/
def Routine.callees (r : Routine) : List Ident :=
  r.instructions.filterMap Instruction.callee? ++ r.nodes.filterMap Expr.callee?

namespace Scope

variable {cx : Scope}

theorem Yields.exists_callee : ∀ {q : Path} {t? : Option Ty}, cx.Yields q t? → ∀ f ∈ q.callee?,
    ∃ r ∈ cx.program.routines, r.name = f.name
  | .call f args, _, .call hr hf _, _, hcallee => by
    cases hcallee
    exact ⟨_, hr, hf⟩
  | .index base i, _, .index h _ _, f, hcallee => h.exists_callee f hcallee
  | .member base x, _, .member h _ _ _, f, hcallee => h.exists_callee f hcallee
  | .method base x args, _, .method h _ _ _ _, f, hcallee => h.exists_callee f hcallee

theorem HasType.exists_callee {e : Expr} {t : Ty} (h : cx.HasType e t) {f : Ident}
    (hf : f ∈ e.callee?) : ∃ r ∈ cx.program.routines, r.name = f.name := by
  cases h with
  | path h => exact h.exists_callee f hf
  | literal | not | binary => cases hf

theorem Allows.exists_callee {i : Instruction} (h : cx.Allows i) {f : Ident} (hf : f ∈ i.callee?) :
    ∃ r ∈ cx.program.routines, r.name = f.name := by
  cases h with
  | read _ hq _ | assign _ hq _ _ | evaluate _ hq => exact hq.exists_callee f hf
  | print | result | branch | whileLoop | untilLoop | forLoop | guarded => cases hf

end Scope

namespace Program

variable {p : Program}

/-- Every declaration is found by its name, and is the only one that can be. -/
structure Unambiguous (p : Program) : Prop where
  structures : ∀ s ∈ p.structures, p.structure? s.name = some s ∧ p.DeclaredOnce .structures s.name
  constants : ∀ c ∈ p.constants, p.constant? c.name = some c ∧ p.DeclaredOnce .constants c.name
  globals : ∀ s ∈ p.globals, p.global? s.name = some s ∧ p.DeclaredOnce .globals s.name
  functions : ∀ f ∈ p.functions, p.function? f.name = some f ∧ p.DeclaredOnce .functions f.name
  procedures : ∀ f ∈ p.procedures, p.procedure? f.name = some f ∧ p.DeclaredOnce .procedures f.name
  params : ∀ r ∈ p.routines, ∀ q ∈ r.params,
    Scope.lookup? ⟨p, some r⟩ q.name = some (.ofParameter q) ∧ (r.symbols.map (·.name)).count q.name = 1
  locals : ∀ r ∈ p.routines, ∀ s ∈ r.locals,
    Scope.lookup? ⟨p, some r⟩ s.name = some (.ofLocal s) ∧ (r.symbols.map (·.name)).count s.name = 1
  /-- What a routine calls is none of its parameters and locals, and a single routine of the program. -/
  callees : ∀ r ∈ p.routines, ∀ f ∈ r.callees, (∀ s ∈ r.symbols, s.name ≠ f.name) ∧
    ∃ g, p.routine? f.name = some g ∧ g ∈ p.routines ∧ g.name = f.name ∧
      (p.routines.map (·.name)).count f.name = 1

theorem map_name_eq_flatMap (p : Program) :
    p.declaredIdents.map (·.name) = Collection.all.flatMap p.names := by
  simp only [map_name_declaredIdents, routines, Collection.all, List.flatMap_cons, List.flatMap_nil,
    names, List.map_append, List.append_nil]

namespace DistinctNames

theorem functions (h : p.DistinctNames) : (p.functions.map (·.name)).Nodup := by
  have hall := h.routines
  rw [Program.routines, List.map_append] at hall
  exact (List.nodup_append.1 hall).1

theorem procedures (h : p.DistinctNames) : (p.procedures.map (·.name)).Nodup := by
  have hall := h.routines
  rw [Program.routines, List.map_append] at hall
  exact (List.nodup_append.1 hall).2.1

/-- The passes over all names tell the collections apart. -/
theorem declaredOnce (h : p.DistinctNames) {k : Collection} {name : String} (hname : name ∈ p.names k) :
    p.DeclaredOnce k name := by
  have hall := h.declared
  rw [map_name_eq_flatMap, List.nodup_flatMap] at hall
  obtain ⟨hnodup, hdisjoint⟩ := hall
  intro k'
  split
  case isTrue hk =>
    subst hk
    exact List.count_eq_one_of_mem (hnodup k' k'.mem_all) hname
  case isFalse hk =>
    have hsymm : Std.Symm (Function.onFun List.Disjoint p.names) :=
      ⟨fun _ _ h _ ha hb => h hb ha⟩
    have hapart : (p.names k').Disjoint (p.names k) := hdisjoint.forall k'.mem_all k.mem_all hk
    exact List.count_eq_zero.2 fun hmem => hapart hmem hname

end DistinctNames

theorem WellTyped.exists_callee (h : p.WellTyped) {r : Routine} (hr : r ∈ p.routines) {f : Ident}
    (hf : f ∈ r.callees) : ∃ g ∈ p.routines, g.name = f.name := by
  rcases List.mem_append.1 hf with hf | hf
  · obtain ⟨i, hi, hcallee⟩ := List.mem_filterMap.1 hf
    exact (h.instructions hr i hi).exists_callee hcallee
  · obtain ⟨e, he, hcallee⟩ := List.mem_filterMap.1 hf
    obtain ⟨t, ht⟩ := h.nodes hr e he
    exact ht.exists_callee hcallee

/-- **No declaration is hidden or ambiguous.** In a program without problems every declaration is found by
its name and no other one has that name; parameters and locals are what their names stand for in their
routine; and whatever a routine calls is one routine of the program, which nothing in it hides. -/
theorem unambiguous (h : p.check = []) : p.Unambiguous := by
  have hp := WellTyped.of_check h
  have hnames := hp.distinct
  have hsymbol {r : Routine} (hr : r ∈ p.routines) {s : Symbol} (hs : s ∈ r.symbols) :
      (r.symbols.map (·.name)).count s.name = 1 :=
    List.count_eq_one_of_mem (hnames.symbols r hr) (List.mem_map_of_mem hs)
  exact {
    structures := fun s hs =>
      ⟨hnames.structure?_eq_some_iff.2 ⟨hs, rfl⟩, hnames.declaredOnce (List.mem_map_of_mem hs)⟩
    constants := fun c hc =>
      ⟨hnames.constant?_eq_some_iff.2 ⟨hc, rfl⟩, hnames.declaredOnce (List.mem_map_of_mem hc)⟩
    globals := fun s hs =>
      ⟨hnames.global?_eq_some_iff.2 ⟨hs, rfl⟩, hnames.declaredOnce (List.mem_map_of_mem hs)⟩
    functions := fun f hf =>
      ⟨(find?_eq_some_iff_of_nodup hnames.functions).2 ⟨hf, rfl⟩,
        hnames.declaredOnce (List.mem_map_of_mem hf)⟩
    procedures := fun f hf =>
      ⟨(find?_eq_some_iff_of_nodup hnames.procedures).2 ⟨hf, rfl⟩,
        hnames.declaredOnce (List.mem_map_of_mem hf)⟩
    params := fun r hr q hq => by
      refine ⟨(Scope.lookup?_iff_binds (hnames.scope_some hr)).2 (.ofParameter rfl hq), ?_⟩
      exact hsymbol hr (List.mem_append_left _ (List.mem_map_of_mem hq))
    locals := fun r hr s hs => by
      refine ⟨(Scope.lookup?_iff_binds (hnames.scope_some hr)).2 (.ofLocal rfl hs), ?_⟩
      exact hsymbol hr (List.mem_append_right _ hs)
    callees := fun r hr f hf => by
      obtain ⟨g, hg, hname⟩ := hp.exists_callee hr hf
      refine ⟨fun s hs heq => (hp.apart r hr s hs).2 g hg (hname.trans heq.symm), g, ?_, hg, hname, ?_⟩
      · exact hnames.routine?_eq_some_iff.2 ⟨hg, hname⟩
      · rw [← hname]
        exact List.count_eq_one_of_mem hnames.routines (List.mem_map_of_mem hg) }

/-- A local that hides a global, a parameter that hides a constant, and a call below an index. -/
def hidingText : String :=
  "program t\nstructure point\nx : integer\nend\nconstant limit : integer = 3\nglobal count : integer\n" ++
    "function t(in args : vector of string) : integer\nlocal count : point\n" ++
    "print args[twice(limit) - count.x]\nreturn 0\nend\n" ++
    "function twice(in limit : integer) : integer\nreturn limit + limit\nend"

theorem unambiguous_hiding : ∃ p, Program.parse hidingText = .ok p ∧ p.check = [] ∧ p.Unambiguous ∧
    ∃ r ∈ p.routines, r.callees.map (·.name) = ["twice"] ∧
      ∃ s ∈ r.locals, s.name = "count" ∧ (p.global? "count").isSome ∧
        Scope.lookup? ⟨p, some r⟩ "count" = some (.ofLocal s) := by
  have hany : (Program.parse hidingText).toOption.any (fun p => p.check.isEmpty &&
      (p.global? "count").isSome && p.routines.any fun r => r.callees.map (·.name) == ["twice"] &&
        r.locals.any (·.name == "count")) = true := by decide +kernel
  obtain ⟨p, hp, hany⟩ := exists_ok_of_any hany
  simp only [Bool.and_eq_true, List.any_eq_true, List.isEmpty_iff, beq_iff_eq] at hany
  obtain ⟨⟨hcheck, hglobal⟩, r, hr, hcallees, s, hs, hname⟩ := hany
  have hunambiguous := unambiguous hcheck
  refine ⟨p, hp, hcheck, hunambiguous, r, hr, hcallees, s, hs, hname, hglobal, ?_⟩
  rw [← hname]
  exact (hunambiguous.locals r hr s hs).1

end Program

end Primer
