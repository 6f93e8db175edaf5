import Primer.Grammar.Declaration
import Primer.Proofs.Grammar.Chain
import Primer.Proofs.Syntax.Erasure

/-!
Syntax with its places moved. `relocate f` puts everything that stands at a place to where `f` takes that
place; to put everything to one place is to erase places. What is built from parts that were moved is
what was built from the parts, moved: so it is for paths, for chains of operators and for programs.
-/

namespace Primer

variable (f : Position → Position)

/-- The name, standing where `f` takes its place. -/
def Ident.relocate (x : Ident) : Ident := { x with position := f x.position }

mutual
/-- The expression with its places moved: those of its operators and of the names in it. Literals have
none. -/
def Expr.relocate : Expr → Expr
  | .literal value => .literal value
  | .path p => .path p.relocate
  | .not i e => .not (f i) e.relocate
  | .binary i o left right => .binary (f i) o left.relocate right.relocate

/-- The path with the places of its names moved, and those of its arguments and indices. -/
def Path.relocate : Path → Path
  | .var x => .var (x.relocate f)
  | .call x args => .call (x.relocate f) (Expr.relocateAll args)
  | .index base i => .index base.relocate i.relocate
  | .member base x => .member base.relocate (x.relocate f)
  | .method base x args => .method base.relocate (x.relocate f) (Expr.relocateAll args)

/-- The expressions of a list, each moved. Written out next to `Expr.relocate`, for the recursion to be
structural. -/
def Expr.relocateAll : List Expr → List Expr
  | [] => []
  | e :: es => e.relocate :: Expr.relocateAll es
end

/-- Outside of recursions the moved list is an ordinary `map`. -/
@[simp] theorem Expr.relocateAll_eq_map (es : List Expr) :
    Expr.relocateAll f es = es.map (Expr.relocate f) := by
  induction es with
  | nil => rfl
  | cons e es ih => rw [Expr.relocateAll, ih, List.map_cons]

mutual
/-- The instruction with its own place moved, where it has one, and all those in its expressions and
blocks. -/
def Instruction.relocate : Instruction → Instruction
  | .print i es => .print (f i) (es.map (Expr.relocate f))
  | .read target => .read (target.relocate f)
  | .result i value => .result (f i) (value.relocate f)
  | .evaluate e => .evaluate (e.relocate f)
  | .assign i target value => .assign (f i) (target.relocate f) (value.relocate f)
  | .branch i condition body otherwise =>
    .branch (f i) (condition.relocate f) (Instruction.relocateAll body) otherwise.relocate
  | .whileLoop i condition body =>
    .whileLoop (f i) (condition.relocate f) (Instruction.relocateAll body)
  | .untilLoop i body condition =>
    .untilLoop (f i) (Instruction.relocateAll body) (condition.relocate f)
  | .forLoop i counter first last body =>
    .forLoop (f i) (counter.relocate f) (first.relocate f) (last.relocate f)
      (Instruction.relocateAll body)
  | .guarded i condition body => .guarded (f i) (condition.relocate f) body.relocate

/-- The branches behind the first one, each with its condition and its block moved. -/
def Alternatives.relocate : Alternatives → Alternatives
  | .none => .none
  | .otherwise body => .otherwise (Instruction.relocateAll body)
  | .elsif i condition body next =>
    .elsif (f i) (condition.relocate f) (Instruction.relocateAll body) next.relocate

/-- The instructions of a block, each moved. -/
def Instruction.relocateAll : List Instruction → List Instruction
  | [] => []
  | i :: is => i.relocate :: Instruction.relocateAll is
end

@[simp] theorem Instruction.relocateAll_eq_map (is : List Instruction) :
    Instruction.relocateAll f is = is.map (Instruction.relocate f) := by
  induction is with
  | nil => rfl
  | cons i is ih => rw [Instruction.relocateAll, ih, List.map_cons]

/-- The symbol with its name moved. A type stands nowhere. -/
def Symbol.relocate (s : Symbol) : Symbol := { s with ident := s.ident.relocate f }

/-- The structure with its own name and those of its members moved. -/
def Structure.relocate (s : Structure) : Structure :=
  ⟨s.ident.relocate f, s.members.map (Symbol.relocate f)⟩

/-- The parameter with its name moved; the mode is kept. -/
def Parameter.relocate (p : Parameter) : Parameter := { p with symbol := p.symbol.relocate f }

/-- The constant with its name and its value moved. -/
def Constant.relocate (c : Constant) : Constant := ⟨c.symbol.relocate f, c.value.relocate f⟩

/-- The routine with its name, its symbols and its body moved. -/
def Routine.relocate (r : Routine) : Routine where
  ident := r.ident.relocate f
  params := r.params.map (Parameter.relocate f)
  locals := r.locals.map (Symbol.relocate f)
  body := r.body.map (Instruction.relocate f)
  result := r.result

/-- The declaration with what it declares moved. -/
def Declaration.relocate : Declaration → Declaration
  | .ofStructure s => .ofStructure (s.relocate f)
  | .ofConstant c => .ofConstant (c.relocate f)
  | .ofGlobal s => .ofGlobal (s.relocate f)
  | .ofRoutine r => .ofRoutine (r.relocate f)

/-- The program with everything that it declares moved. -/
def Program.relocate (p : Program) : Program where
  ident := p.ident.relocate f
  structures := p.structures.map (Structure.relocate f)
  constants := p.constants.map (Constant.relocate f)
  globals := p.globals.map (Symbol.relocate f)
  functions := p.functions.map (Routine.relocate f)
  procedures := p.procedures.map (Routine.relocate f)

/-! ## Places that stay -/

@[simp] theorem Ident.relocate_id (x : Ident) : x.relocate id = x := rfl

mutual
/-- Places that are all taken to themselves leave an expression as it is. -/
@[simp] theorem Expr.relocate_id : ∀ e : Expr, e.relocate id = e
  | .path p => by rw [Expr.relocate, Path.relocate_id p]
  | .literal _ => rfl
  | .not _ e => by rw [Expr.relocate, Expr.relocate_id e, id]
  | .binary _ _ left right => by
    rw [Expr.relocate, Expr.relocate_id left, Expr.relocate_id right, id]

@[simp] theorem Path.relocate_id : ∀ p : Path, p.relocate id = p
  | .var _ => rfl
  | .call _ args => by rw [Path.relocate, Expr.relocateAll_id args, Ident.relocate_id]
  | .index base i => by rw [Path.relocate, Path.relocate_id base, Expr.relocate_id i]
  | .member base _ => by rw [Path.relocate, Path.relocate_id base, Ident.relocate_id]
  | .method base _ args => by
    rw [Path.relocate, Path.relocate_id base, Expr.relocateAll_id args, Ident.relocate_id]

theorem Expr.relocateAll_id : ∀ es : List Expr, Expr.relocateAll id es = es
  | [] => rfl
  | e :: es => by rw [Expr.relocateAll, Expr.relocate_id e, Expr.relocateAll_id es]
end

mutual
/-- Places that are all taken to themselves leave an instruction as it is. -/
@[simp] theorem Instruction.relocate_id : ∀ i : Instruction, i.relocate id = i
  | .print _ es => by rw [Instruction.relocate, List.map_id'' Expr.relocate_id, id]
  | .read _ | .result _ _ | .evaluate _ | .assign _ _ _ => by simp [Instruction.relocate]
  | .branch _ _ body next => by
    simp [Instruction.relocate, -Instruction.relocateAll_eq_map, Instruction.relocateAll_id body,
      Alternatives.relocate_id next]
  | .whileLoop _ _ body | .untilLoop _ body _ | .forLoop _ _ _ _ body => by
    simp [Instruction.relocate, -Instruction.relocateAll_eq_map, Instruction.relocateAll_id body]
  | .guarded _ _ i => by simp [Instruction.relocate, Instruction.relocate_id i]

@[simp] theorem Alternatives.relocate_id : ∀ a : Alternatives, a.relocate id = a
  | .elsif _ _ body next => by
    rw [Alternatives.relocate, Instruction.relocateAll_id body, Alternatives.relocate_id next,
      Expr.relocate_id, id]
  | .otherwise body => by rw [Alternatives.relocate, Instruction.relocateAll_id body]
  | .none => rfl

theorem Instruction.relocateAll_id : ∀ is : List Instruction, Instruction.relocateAll id is = is
  | [] => rfl
  | i :: is => by rw [Instruction.relocateAll, Instruction.relocate_id i, Instruction.relocateAll_id is]
end

theorem Symbol.relocate_id (s : Symbol) : s.relocate id = s := rfl

/-- A declaration is its own copy at the same places, so that what is said of moved declarations can be
said of unmoved ones. -/
theorem Declaration.relocate_id (d : Declaration) : d.relocate id = d := by
  cases d with
  | ofStructure s => rw [relocate, Structure.relocate, List.map_id'' Symbol.relocate_id]; rfl
  | ofConstant c => rw [relocate, Constant.relocate, Expr.relocate_id]; rfl
  | ofGlobal s => rfl
  | ofRoutine r =>
    have hparameter (p : Parameter) : p.relocate id = p := rfl
    rw [relocate, Routine.relocate, List.map_id'' hparameter, List.map_id'' Symbol.relocate_id,
      List.map_id'' Instruction.relocate_id]
    rfl

/-! ## One place for all -/

theorem Ident.erase_eq_relocate (x : Ident) : x.erase = x.relocate fun _ => default := rfl

mutual
/-- To erase places is to move them all to one. Whatever holds of moved syntax holds of erased syntax. -/
theorem Expr.erase_eq_relocate : ∀ e : Expr, e.erase = e.relocate fun _ => default
  | .path p => by rw [Expr.erase, Expr.relocate, Path.erase_eq_relocate p]
  | .literal _ => rfl
  | .not _ e => by rw [Expr.erase, Expr.relocate, Expr.erase_eq_relocate e]
  | .binary _ _ left right => by
    rw [Expr.erase, Expr.relocate, Expr.erase_eq_relocate left, Expr.erase_eq_relocate right]

theorem Path.erase_eq_relocate : ∀ p : Path, p.erase = p.relocate fun _ => default
  | .var _ => rfl
  | .call _ args => by
    rw [Path.erase, Path.relocate, Expr.eraseAll_eq_relocateAll args, Ident.erase_eq_relocate]
  | .index base i => by
    rw [Path.erase, Path.relocate, Path.erase_eq_relocate base, Expr.erase_eq_relocate i]
  | .member base _ => by
    rw [Path.erase, Path.relocate, Path.erase_eq_relocate base, Ident.erase_eq_relocate]
  | .method base _ args => by
    rw [Path.erase, Path.relocate, Path.erase_eq_relocate base, Expr.eraseAll_eq_relocateAll args,
      Ident.erase_eq_relocate]

theorem Expr.eraseAll_eq_relocateAll : ∀ es : List Expr,
    Expr.eraseAll es = Expr.relocateAll (fun _ => default) es
  | [] => rfl
  | e :: es => by
    rw [Expr.eraseAll, Expr.relocateAll, Expr.erase_eq_relocate e, Expr.eraseAll_eq_relocateAll es]
end

mutual
/-- An instruction without places, as one whose places have all become the same. -/
theorem Instruction.erase_eq_relocate : ∀ i : Instruction, i.erase = i.relocate fun _ => default
  | .print _ _ | .read _ | .result _ _ | .evaluate _ | .assign _ _ _ => by
    simp [Instruction.erase, Instruction.relocate, Expr.erase_eq_relocate, Path.erase_eq_relocate]
  | .branch _ _ body next => by
    rw [Instruction.erase, Instruction.relocate, Instruction.eraseAll_eq_relocateAll body,
      Alternatives.erase_eq_relocate next, Expr.erase_eq_relocate]
  | .whileLoop _ _ body | .untilLoop _ body _ => by
    rw [Instruction.erase, Instruction.relocate, Instruction.eraseAll_eq_relocateAll body,
      Expr.erase_eq_relocate]
  | .forLoop _ _ _ _ body => by
    rw [Instruction.erase, Instruction.relocate, Instruction.eraseAll_eq_relocateAll body,
      Expr.erase_eq_relocate, Expr.erase_eq_relocate, Ident.erase_eq_relocate]
  | .guarded _ _ i => by
    rw [Instruction.erase, Instruction.relocate, Instruction.erase_eq_relocate i, Expr.erase_eq_relocate]

theorem Alternatives.erase_eq_relocate : ∀ a : Alternatives, a.erase = a.relocate fun _ => default
  | .elsif _ _ body next => by
    rw [Alternatives.erase, Alternatives.relocate, Instruction.eraseAll_eq_relocateAll body,
      Alternatives.erase_eq_relocate next, Expr.erase_eq_relocate]
  | .otherwise body => by
    rw [Alternatives.erase, Alternatives.relocate, Instruction.eraseAll_eq_relocateAll body]
  | .none => rfl

theorem Instruction.eraseAll_eq_relocateAll : ∀ is : List Instruction,
    Instruction.eraseAll is = Instruction.relocateAll (fun _ => default) is
  | [] => rfl
  | i :: is => by
    rw [Instruction.eraseAll, Instruction.relocateAll, Instruction.erase_eq_relocate i,
      Instruction.eraseAll_eq_relocateAll is]
end

theorem Routine.erase_eq_relocate (r : Routine) : r.erase = r.relocate fun _ => default := by
  rw [Routine.erase, Routine.relocate, funext Instruction.erase_eq_relocate]
  rfl

theorem Constant.erase_eq_relocate (c : Constant) : c.erase = c.relocate fun _ => default := by
  rw [Constant.erase, Constant.relocate, Expr.erase_eq_relocate]
  rfl

theorem Declaration.erase_eq_relocate (d : Declaration) : d.erase = d.relocate fun _ => default := by
  cases d with
  | ofConstant c => rw [erase, relocate, Constant.erase_eq_relocate]
  | ofRoutine r => rw [erase, relocate, Routine.erase_eq_relocate]
  | ofStructure s => rfl
  | ofGlobal s => rfl

/-- A program without places, as one whose places have all become the same. -/
theorem Program.erase_eq_relocate (p : Program) : p.erase = p.relocate fun _ => default := by
  rw [Program.erase, Program.relocate, funext Constant.erase_eq_relocate,
    funext Routine.erase_eq_relocate]
  rfl

/-! ## Paths and chains -/

namespace Segment

/-- The segment with its name, its arguments and its indices moved. -/
def relocate (s : Segment) : Segment :=
  ⟨s.ident.relocate f, s.args.map (·.map (Expr.relocate f)), s.indices.map (Expr.relocate f)⟩

/-- Indices are put on a path one after the other, and each is moved by itself. -/
theorem relocate_foldl_index (base : Path) (indices : List Expr) :
    (indices.foldl .index base).relocate f =
      (indices.map (Expr.relocate f)).foldl .index (base.relocate f) := by
  induction indices generalizing base with
  | nil => rfl
  | cons i indices ih => rw [List.foldl_cons, ih, List.map_cons, List.foldl_cons, Path.relocate]

theorem relocate_start (s : Segment) : s.start.relocate f = (s.relocate f).start := by
  obtain ⟨ident, args, indices⟩ := s
  rw [start, relocate_foldl_index]
  cases args with
  | none => rfl
  | some args => simp [start, relocate, Path.relocate]

/-- A path that goes on by a segment is moved by moving both. -/
theorem relocate_extend (s : Segment) (base : Path) :
    (s.extend base).relocate f = (s.relocate f).extend (base.relocate f) := by
  obtain ⟨ident, args, indices⟩ := s
  rw [extend, relocate_foldl_index]
  cases args with
  | none => rfl
  | some args => simp [extend, relocate, Path.relocate]

/-- A path of several segments is moved segment by segment. -/
theorem relocate_foldl_extend (base : Path) (segments : List Segment) :
    (segments.foldl (fun p s => s.extend p) base).relocate f =
      (segments.map (relocate f)).foldl (fun p s => s.extend p) (base.relocate f) := by
  induction segments generalizing base with
  | nil => rfl
  | cons s segments ih => rw [List.foldl_cons, ih, relocate_extend, List.map_cons, List.foldl_cons]

end Segment

/-- The link with its operator and its operand moved. -/
def Link.relocate (l : Link) : Link := ⟨f l.position, l.operator, l.operand.relocate f⟩

/-- The weights of the operators do not depend on places, so a chain that is moved is joined as before. -/
theorem Expr.relocate_ofChain (first : Expr) (links : List Link) :
    (ofChain first links).relocate f = ofChain (first.relocate f) (links.map (Link.relocate f)) := by
  have hcarries : Expr.joining.Carries Expr.joining f (relocate f) (relocate f) :=
    ⟨fun _ => rfl, fun _ _ _ _ => rfl, fun _ => rfl⟩
  exact hcarries.ofChain first links

/-! ## Programs -/

/-- A declaration comes into the same collection of the program wherever it stands. -/
theorem Program.relocate_declare (p : Program) (d : Declaration) :
    (p.declare d).relocate f = (p.relocate f).declare (d.relocate f) := by
  cases d with
  | ofRoutine r =>
    have hkind : (r.relocate f).isProcedure = r.isProcedure := rfl
    cases hr : r.isProcedure <;> simp [declare, relocate, Declaration.relocate, hkind, hr]
  | _ => simp [declare, relocate, Declaration.relocate]

/-- The program of moved declarations is the program of the declarations, moved. -/
theorem Program.relocate_ofDeclarations (ident : Ident) (ds : List Declaration) :
    (ofDeclarations ident ds).relocate f =
      ofDeclarations (ident.relocate f) (ds.map (Declaration.relocate f)) := by
  have hfold (p : Program) : (ds.foldl declare p).relocate f =
      (ds.map (Declaration.relocate f)).foldl declare (p.relocate f) := by
    induction ds generalizing p with
    | nil => rfl
    | cons d ds ih => rw [List.foldl_cons, ih, relocate_declare, List.map_cons, List.foldl_cons]
  exact hfold (empty ident)

/-- Which structures later declarations may refer to does not depend on places. -/
theorem structureNames_map_relocate (ds : List Declaration) :
    Grammar.structureNames (ds.map (Declaration.relocate f)) = Grammar.structureNames ds := by
  rw [Grammar.structureNames, Grammar.structureNames, List.filterMap_map]
  congr 1
  funext d
  cases d <;> rfl

end Primer
