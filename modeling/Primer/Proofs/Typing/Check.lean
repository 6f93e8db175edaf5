import Primer.Proofs.Typing.Scope

/-!
Checking finds no problem in a program exactly if the program obeys the rules. Each check is compared with
the rule it stands for; those of expressions and names rest on distinct names, which are checked as well.
-/

namespace Primer

/-- A check that stops at its first problem reports none exactly if it gets through. -/
@[simp] theorem reported_eq_nil {x : Except Diagnostic α} : reported x = [] ↔ ∃ a, x = .ok a := by
  cases x <;> simp [reported]

theorem ite_eq_nil_iff {c : Bool} {d : Diagnostic} : (if c then [] else [d]) = [] ↔ c = true := by
  cases c <;> simp

@[simp] theorem discard_eq_ok {x : Except Diagnostic α} {u : Unit} :
    discard x = .ok u ↔ ∃ a, x = .ok a := by
  cases x with
  | error d => exact ⟨nofun, nofun⟩
  | ok a => exact ⟨fun _ => ⟨a, rfl⟩, fun _ => rfl⟩

namespace Scope

variable {cx : Scope}

/-! ## Instructions -/

section
variable (hcx : cx.Distinct)
include hcx

attribute [local simp] checkInstruction

/-- The type is worked out before it is asked whether the path is writable; both orders allow the same
paths. -/
theorem writableType_iff {q : Path} {t : Ty} :
    cx.writableType q = .ok t ↔ cx.Writable q ∧ cx.Yields q (some t) := by
  rw [← isWritable_iff hcx, ← typeOfPath_iff hcx, and_comm]
  simp [writableType]

theorem checkCondition_iff {c : Expr} {i : Position} :
    cx.checkCondition c i = [] ↔ cx.HasType c .boolean := by
  rw [← typeOf_iff hcx]
  simp [checkCondition]

theorem checkBound_iff {e : Expr} {i : Position} :
    cx.checkBound e i = [] ↔ ∃ t, cx.HasType e t ∧ t.isIntegral = true := by
  simp [checkBound, requireIndex, typeOf_iff hcx]

/-- The counter of a loop is a name and not an expression, so the rule asks what the name is bound to. -/
theorem checkCounter_iff {x : Ident} :
    cx.checkCounter x = [] ↔ ∃ b, cx.Binds x.name b ∧ b.Storage ∧ b.type.isIntegral = true := by
  simp only [← lookup?_iff_binds hcx, ← Binding.isWritable_iff]
  unfold checkCounter
  cases cx.lookup? x.name <;> simp

theorem checkInstruction_print_iff {i : Position} {es : List Expr} :
    cx.checkInstruction (.print i es) = [] ↔
      ∀ e ∈ es, ∃ t, cx.HasType e t ∧ t.isScalar = true := by
  simp [requireScalar, typeOf_iff hcx]

theorem checkInstruction_read_iff {q : Path} :
    cx.checkInstruction (.read q) = [] ↔
      ∃ t, (cx.Writable q ∧ cx.Yields q (some t)) ∧ t.isScalar = true := by
  simp [requireScalar, writableType_iff hcx]

/-- A value may be given by functions only. A routine without a result accepts none. -/
theorem checkInstruction_result_iff {i : Position} {e : Expr} :
    cx.checkInstruction (.result i e) = [] ↔ ∃ r ∈ cx.routine, ∃ t ∈ r.result,
      ∃ u, cx.HasType e u ∧ t.Accepts u := by
  cases hr : cx.routine with
  | none => simp [hr]
  | some r =>
    cases ht : r.result with
    | none => simp [hr, ht]
    | some t =>
      simp [hr, ht, expectType, requireAccepted, Ty.accepts_iff, typeOf_iff hcx]

/-- Only a call may stand by itself, and a procedure may be called as well as a function. -/
theorem checkInstruction_evaluate_iff {e : Expr} :
    cx.checkInstruction (.evaluate e) = [] ↔
      ∃ q, e = .path q ∧ q.endsInCall = true ∧ ∃ t?, cx.Yields q t? := by
  cases e with
  | path q =>
    cases h : q.endsInCall <;> simp [Expr.path?, h, typeOfPath_iff hcx]
  | _ => simp [Expr.path?]

theorem checkInstruction_assign_iff {i : Position} {q : Path} {e : Expr} :
    cx.checkInstruction (.assign i q e) = [] ↔
      ∃ u t, (cx.Writable q ∧ cx.Yields q (some t)) ∧ cx.HasType e u ∧ t.Accepts u := by
  simp [writableType_iff hcx, expectType, requireAccepted, Ty.accepts_iff,
    typeOf_iff hcx]

end

mutual
/-- Instructions are checked by the rules. By recursion on the syntax, through branches and blocks. -/
theorem checkInstruction_iff (hcx : cx.Distinct) :
    ∀ {i : Instruction}, cx.checkInstruction i = [] ↔ cx.Allows i
  | .print i es => by
    rw [checkInstruction_print_iff hcx]
    exact ⟨.print, fun | .print h => h⟩
  | .read q => by
    rw [checkInstruction_read_iff hcx]
    exact ⟨fun ⟨_, ⟨hw, hq⟩, ht⟩ => .read hw hq ht, fun | .read hw hq ht => ⟨_, ⟨hw, hq⟩, ht⟩⟩
  | .result i e => by
    rw [checkInstruction_result_iff hcx]
    exact ⟨fun ⟨_, hr, _, ht, _, he, hu⟩ => .result hr ht he hu,
      fun | .result hr ht he hu => ⟨_, hr, _, ht, _, he, hu⟩⟩
  | .evaluate e => by
    rw [checkInstruction_evaluate_iff hcx]
    constructor
    · rintro ⟨q, rfl, hcall, t?, hq⟩
      exact .evaluate hcall hq
    · rintro (_ | _ | _ | ⟨hcall, hq⟩)
      exact ⟨_, rfl, hcall, _, hq⟩
  | .assign i q e => by
    rw [checkInstruction_assign_iff hcx]
    exact ⟨fun ⟨_, _, ⟨hw, hq⟩, he, hu⟩ => .assign hw hq he hu,
      fun | .assign hw hq he hu => ⟨_, _, ⟨hw, hq⟩, he, hu⟩⟩
  | .branch i c body next => by
    rw [checkInstruction, List.append_eq_nil_iff, List.append_eq_nil_iff, checkCondition_iff hcx,
      checkBlock_iff hcx, checkAlternatives_iff hcx]
    exact ⟨fun ⟨⟨hc, hbody⟩, hnext⟩ => .branch hc hbody hnext,
      fun | .branch hc hbody hnext => ⟨⟨hc, hbody⟩, hnext⟩⟩
  | .whileLoop i c body => by
    rw [checkInstruction, List.append_eq_nil_iff, checkCondition_iff hcx, checkBlock_iff hcx]
    exact ⟨fun ⟨hc, hbody⟩ => .whileLoop hc hbody, fun | .whileLoop hc hbody => ⟨hc, hbody⟩⟩
  | .untilLoop i body c => by
    rw [checkInstruction, List.append_eq_nil_iff, checkBlock_iff hcx, checkCondition_iff hcx]
    exact ⟨fun ⟨hbody, hc⟩ => .untilLoop hbody hc, fun | .untilLoop hbody hc => ⟨hbody, hc⟩⟩
  | .forLoop i x first last body => by
    simp only [checkInstruction, List.append_eq_nil_iff, checkCounter_iff hcx, checkBound_iff hcx,
      checkBlock_iff hcx]
    constructor
    · rintro ⟨⟨⟨⟨b, hx, hb, ht⟩, t, hfirst, hfirst'⟩, u, hlast, hlast'⟩, hbody⟩
      exact .forLoop hx hb ht hfirst hfirst' hlast hlast' hbody
    · rintro (_ | _ | _ | _ | _ | _ | _ | _ | ⟨hx, hb, ht, hfirst, hfirst', hlast, hlast', hbody⟩)
      exact ⟨⟨⟨⟨_, hx, hb, ht⟩, _, hfirst, hfirst'⟩, _, hlast, hlast'⟩, hbody⟩
  | .guarded i c j => by
    rw [checkInstruction, List.append_eq_nil_iff, checkCondition_iff hcx, checkInstruction_iff hcx]
    exact ⟨fun ⟨hc, h⟩ => .guarded hc h, fun | .guarded hc h => ⟨hc, h⟩⟩

theorem checkAlternatives_iff (hcx : cx.Distinct) :
    ∀ {next : Alternatives}, cx.checkAlternatives next = [] ↔ cx.AllowsAlternatives next
  | .none => ⟨fun _ => .none, fun _ => by rw [checkAlternatives]⟩
  | .otherwise body => by
    rw [checkAlternatives, checkBlock_iff hcx]
    exact ⟨.otherwise, fun | .otherwise hbody => hbody⟩
  | .elsif i c body next => by
    rw [checkAlternatives, List.append_eq_nil_iff, List.append_eq_nil_iff, checkCondition_iff hcx,
      checkBlock_iff hcx, checkAlternatives_iff hcx]
    exact ⟨fun ⟨⟨hc, hbody⟩, hnext⟩ => .elsif hc hbody hnext,
      fun | .elsif hc hbody hnext => ⟨⟨hc, hbody⟩, hnext⟩⟩

theorem checkBlock_iff (hcx : cx.Distinct) :
    ∀ {body : List Instruction}, cx.checkBlock body = [] ↔ ∀ i ∈ body, cx.Allows i
  | [] => by simp [checkBlock]
  | i :: body => by
    rw [checkBlock, List.append_eq_nil_iff, checkInstruction_iff hcx, checkBlock_iff hcx,
      List.forall_mem_cons]
end

end Scope

/-! ## Declarations -/

/-- The names seen so far are kept apart from those to come, so that the induction can go on. -/
theorem repeated_eq_nil_iff {seen : List String} {xs : List Ident} : repeated seen xs = [] ↔
    (xs.map (·.name)).Nodup ∧ ∀ x ∈ xs, x.name ∉ seen := by
  induction xs generalizing seen with
  | nil => simp [repeated]
  | cons x xs ih =>
    rw [repeated]
    split
    case isTrue h =>
      refine ⟨nofun, fun hx => ?_⟩
      exact absurd (List.contains_iff_mem.1 h) (hx.2 x List.mem_cons_self)
    case isFalse h =>
      have hx : x.name ∉ seen := fun hmem => h (List.contains_iff_mem.2 hmem)
      rw [ih, List.map_cons, List.nodup_cons, List.forall_mem_cons]
      simp only [List.mem_cons, not_or, List.mem_map, not_exists, not_and]
      constructor
      · rintro ⟨hnodup, hxs⟩
        exact ⟨⟨fun y hy => (hxs y hy).1, hnodup⟩, hx, fun y hy => (hxs y hy).2⟩
      · rintro ⟨⟨hne, hnodup⟩, -, hxs⟩
        exact ⟨hnodup, fun y hy => ⟨hne y hy, hxs y hy⟩⟩

theorem checkUnique_iff {xs : List Ident} : checkUnique xs = [] ↔ (xs.map (·.name)).Nodup := by
  simp [checkUnique, repeated_eq_nil_iff]

/-- Of the paths only the name of an earlier constant is constant. -/
theorem checkConstantExpr_path_iff {earlier : List Constant} {q : Path} :
    checkConstantExpr earlier (.path q) = .ok () ↔ ConstantExpr earlier (.path q) := by
  cases q with
  | var x =>
    simp only [checkConstantExpr, require_eq_ok, List.any_eq_true, beq_iff_eq]
    constructor
    · rintro ⟨c, hc, hx⟩
      exact .name hc hx
    · intro h
      cases h with
      | name hc hx => exact ⟨_, hc, hx⟩
  | call | index | member | method => constructor <;> intro h <;> cases h

theorem checkConstantExpr_iff {earlier : List Constant} :
    ∀ {e : Expr}, checkConstantExpr earlier e = .ok () ↔ ConstantExpr earlier e
  | .literal v => ⟨fun _ => .literal, fun _ => rfl⟩
  | .path q => checkConstantExpr_path_iff
  | .not i e => by
    rw [checkConstantExpr, checkConstantExpr_iff]
    refine ⟨.not, fun h => ?_⟩
    cases h with
    | not h => exact h
  | .binary i o l r => by
    rw [checkConstantExpr, bind_eq_ok, Unique.exists_iff, checkConstantExpr_iff, checkConstantExpr_iff]
    refine ⟨fun h => .binary h.1 h.2, fun h => ?_⟩
    cases h with
    | binary hl hr => exact ⟨hl, hr⟩

namespace Program

variable {p : Program}

theorem checkType_iff {i : Position} {t : Ty} : p.checkType i t = [] ↔ p.Knows t := by
  induction t with
  | vector t ih =>
    rw [checkType, ih]
    exact ⟨.vector, fun | .vector h => h⟩
  | named name =>
    have hcheck : p.checkType i (.named name) = [] ↔ ∃ s ∈ p.structures, s.name = name := by
      simp [checkType, structure?]
    rw [hcheck]
    exact ⟨fun ⟨_, hs, hname⟩ => hname ▸ .named hs, fun | .named hs => ⟨_, hs, rfl⟩⟩
  | _ => exact ⟨fun _ => .scalar rfl, fun _ => rfl⟩

theorem checkSymbol_iff {s : Symbol} : p.checkSymbol s = [] ↔ p.Knows s.type := checkType_iff

/-- Symbols may have the names of globals and constants, which they hide, but not of structures and
routines. -/
theorem checkShadowing_iff {s : Symbol} : p.checkShadowing s = [] ↔
    (∀ t ∈ p.structures, t.name ≠ s.name) ∧ ∀ q ∈ p.routines, q.name ≠ s.name := by
  simp [checkShadowing, structure?, function?, procedure?, routines, or_imp, forall_and, and_assoc]

theorem checkStructure_iff {s : Structure} : p.checkStructure s = [] ↔
    (s.members.map (·.name)).Nodup ∧ ∀ m ∈ s.members, p.Knows m.type := by
  rw [checkStructure, List.append_eq_nil_iff, checkUnique_iff, List.map_map, List.flatMap_eq_nil_iff]
  simp only [checkSymbol_iff]
  rfl

theorem checkRoutine_iff {r : Routine} : p.checkRoutine r = [] ↔
    (r.symbols.map (·.name)).Nodup ∧
    (∀ s ∈ r.symbols, ((∀ t ∈ p.structures, t.name ≠ s.name) ∧ ∀ q ∈ p.routines, q.name ≠ s.name) ∧
      p.Knows s.type) ∧
    (∀ t ∈ r.result, p.Knows t) ∧ Scope.checkBlock ⟨p, some r⟩ r.body = [] := by
  have hresult : (r.result.map (p.checkType r.ident.position)).getD [] = [] ↔
      ∀ t ∈ r.result, p.Knows t := by
    cases r.result <;> simp [checkType_iff]
  unfold checkRoutine
  change checkUnique (r.symbols.map (·.ident)) ++ r.symbols.flatMap _ ++ _ ++ _ = [] ↔ _
  simp only [List.append_eq_nil_iff, checkUnique_iff, List.map_map, List.flatMap_eq_nil_iff,
    checkShadowing_iff, checkSymbol_iff, hresult, and_assoc]
  rfl

/-- A constant may use those before it, so each is taken with the part of the list before it. -/
theorem checkConstants_iff (hcx : Scope.Distinct ⟨p, none⟩) {earlier cs : List Constant} :
    p.checkConstants earlier cs = [] ↔ (∀ c ∈ cs, p.Knows c.symbol.type) ∧
      ∀ before c after, cs = before ++ c :: after →
        ConstantExpr (earlier ++ before) c.value ∧
          ∃ t, Scope.HasType ⟨p, none⟩ c.value t ∧ c.symbol.type.Accepts t := by
  induction cs generalizing earlier with
  | nil => simp [checkConstants]
  | cons c cs ih =>
    have hvalue : reported (do
          checkConstantExpr earlier c.value
          Scope.expectType ⟨p, none⟩ c.value c.symbol.type c.symbol.ident.position) = [] ↔
        ConstantExpr earlier c.value ∧
          ∃ t, Scope.HasType ⟨p, none⟩ c.value t ∧ c.symbol.type.Accepts t := by
      simp [Scope.expectType, Scope.requireAccepted, Ty.accepts_iff, Unique.exists_iff,
        checkConstantExpr_iff, Scope.typeOf_iff hcx]
    rw [checkConstants, List.append_eq_nil_iff, List.append_eq_nil_iff, checkSymbol_iff, hvalue, ih,
      List.forall_mem_cons]
    constructor
    · rintro ⟨⟨hc, hvalue⟩, hcs, hvalues⟩
      refine ⟨⟨hc, hcs⟩, fun before d after heq => ?_⟩
      rcases List.cons_eq_append_iff.1 heq with ⟨rfl, heq⟩ | ⟨front, rfl, htail⟩
      · cases heq
        simpa using hvalue
      · simpa using hvalues front d after htail
    · rintro ⟨⟨hc, hcs⟩, hvalues⟩
      refine ⟨⟨hc, by simpa using hvalues [] c cs rfl⟩, hcs, fun before d after heq => ?_⟩
      simpa using hvalues (c :: before) d after (by rw [heq, List.cons_append])

/-- The signature of the function that the program starts with: it takes a vector of strings and gives an
integer. -/
theorem isEntry_iff {f : Routine} : isEntry f = true ↔
    (∃ args, f.params = [⟨.input, args⟩] ∧ args.type = .vector .string) ∧
      f.result = some .integer := by
  rw [isEntry, Bool.and_eq_true, beq_iff_eq]
  refine and_congr_left fun _ => ?_
  split
  case h_1 q heq =>
    obtain ⟨mode, symbol⟩ := q
    simp [heq]
  case h_2 hne =>
    refine ⟨nofun, fun ⟨args, heq, _⟩ => ?_⟩
    exact absurd heq (hne _)

/-- Where names are distinct, the function with the name of the program is the one that is found. -/
theorem checkEntry_iff (h : p.DistinctNames) : p.checkEntry = [] ↔
    ∃ f ∈ p.functions, f.name = p.name ∧
      (∃ args, f.params = [⟨.input, args⟩] ∧ args.type = .vector .string) ∧
      f.result = some .integer := by
  have hnodup := h.routines
  rw [routines, List.map_append, List.nodup_append] at hnodup
  have hentry {f : Routine} : p.entry? = some f ↔ f ∈ p.functions ∧ f.name = p.name :=
    find?_eq_some_iff_of_nodup hnodup.1
  unfold checkEntry
  split
  case h_1 hnone =>
    constructor
    · intro h
      cases h
    · rintro ⟨f, hf, hname, -⟩
      rw [hentry.2 ⟨hf, hname⟩] at hnone
      cases hnone
  case h_2 f hsome =>
    obtain ⟨hf, hname⟩ := hentry.1 hsome
    rw [ite_eq_nil_iff, isEntry_iff]
    refine ⟨fun hf' => ⟨f, hf, hname, hf'⟩, ?_⟩
    rintro ⟨g, hg, hgname, hg'⟩
    rw [hentry.2 ⟨hg, hgname⟩] at hsome
    cases hsome
    exact hg'

theorem checkName_iff : p.checkName = [] ↔ p.name ≠ "main" := by
  simp [checkName, reservedProgramName]

/-- The checks one by one. -/
theorem check_eq_nil_iff : p.check = [] ↔
    p.name ≠ "main" ∧ (p.declaredIdents.map (·.name)).Nodup ∧
    (∀ s ∈ p.structures, (s.members.map (·.name)).Nodup ∧ ∀ m ∈ s.members, p.Knows m.type) ∧
    p.checkConstants [] p.constants = [] ∧ (∀ s ∈ p.globals, p.Knows s.type) ∧
    (∀ r ∈ p.routines, p.checkRoutine r = []) ∧ p.checkEntry = [] := by
  simp only [check, List.append_eq_nil_iff, checkName_iff, checkUnique_iff, List.flatMap_eq_nil_iff,
    checkStructure_iff, checkSymbol_iff, and_assoc]

/-- Distinct names come first: the comparison of all other checks with their rules rests on them. -/
theorem DistinctNames.of_check (h : p.check = []) : p.DistinctNames := by
  obtain ⟨-, hdeclared, hstructures, -, -, hroutines, -⟩ := check_eq_nil_iff.1 h
  exact ⟨hdeclared, fun s hs => (hstructures s hs).1, fun r hr => (checkRoutine_iff.1 (hroutines r hr)).1⟩

theorem DistinctNames.scope_none (h : p.DistinctNames) : Scope.Distinct ⟨p, none⟩ := ⟨h, nofun⟩

theorem DistinctNames.scope_some (h : p.DistinctNames) {r : Routine} (hr : r ∈ p.routines) :
    Scope.Distinct ⟨p, some r⟩ := ⟨h, fun _ heq => Option.some.inj heq ▸ h.symbols r hr⟩

/-- A program without problems obeys the rules, one after the other. -/
theorem WellTyped.of_check (h : p.check = []) : p.WellTyped := by
  have hdistinct := DistinctNames.of_check h
  obtain ⟨hname, -, hstructures, hconstants, hglobals, hroutines, hentry⟩ := check_eq_nil_iff.1 h
  obtain ⟨hconstantTypes, hconstants⟩ := (checkConstants_iff hdistinct.scope_none).1 hconstants
  have hroutine {r : Routine} (hr : r ∈ p.routines) := checkRoutine_iff.1 (hroutines r hr)
  exact {
    name := hname
    distinct := hdistinct
    apart := fun r hr s hs => ((hroutine hr).2.1 s hs).1
    memberTypes := fun s hs => (hstructures s hs).2
    constantTypes := hconstantTypes
    globalTypes := hglobals
    symbolTypes := fun r hr s hs => ((hroutine hr).2.1 s hs).2
    resultTypes := fun r hr => (hroutine hr).2.2.1
    constants := hconstants
    bodies := fun r hr => (Scope.checkBlock_iff (hdistinct.scope_some hr)).1 (hroutine hr).2.2.2
    entry := (checkEntry_iff hdistinct).1 hentry }

/-- And in a program that obeys the rules no check finds a problem. -/
theorem WellTyped.check_eq_nil (h : p.WellTyped) : p.check = [] := by
  refine check_eq_nil_iff.2 ⟨h.name, h.distinct.declared, ?_, ?_, h.globalTypes, ?_, ?_⟩
  · exact fun s hs => ⟨h.distinct.members s hs, h.memberTypes s hs⟩
  · exact (checkConstants_iff h.distinct.scope_none).2 ⟨h.constantTypes, h.constants⟩
  · intro r hr
    refine checkRoutine_iff.2 ⟨h.distinct.symbols r hr, ?_, h.resultTypes r hr, ?_⟩
    · exact fun s hs => ⟨h.apart r hr s hs, h.symbolTypes r hr s hs⟩
    · exact (Scope.checkBlock_iff (h.distinct.scope_some hr)).2 (h.bodies r hr)
  · exact (checkEntry_iff h.distinct).2 h.entry

/-- Checking decides the static semantics: it finds no problem in the well typed programs, and in no
others. -/
theorem check_eq_nil_iff_wellTyped (p : Program) : p.check = [] ↔ p.WellTyped :=
  ⟨.of_check, WellTyped.check_eq_nil⟩

end Program

end Primer
