import Primer.Grammar.Lexical
import Primer.Program

/-!
Syntax that has a written form. Names are words that are no keywords, the texts of strings are closed
under their escapes, whole numbers stand on their side of the range of integers, instructions to
print have something to print, and a type refers to structures that are declared before it.
-/

namespace Primer

/-- A word that may be a name. -/
structure LegalName (name : String) : Prop where
  start : ∃ c ∈ name.toList.head?, isNameStart c = true
  chars : ∀ c ∈ name.toList, isNameChar c = true
  notKeyword : isKeyword name = false
  length_le : name.length ≤ maxNameLength

/-- What may stand between the quotes of a string. -/
inductive LegalText : List Char → Prop where
  | nil : LegalText []
  | plain : c ∉ ['\\', '"', '\r', '\n'] → LegalText cs → LegalText (c :: cs)
  | escape : c ∈ ['"', '\\', 'n', 'r', 't', '0'] → LegalText cs → LegalText ('\\' :: c :: cs)

/-- Texts are put together between escapes, never within one. -/
theorem LegalText.append (h : LegalText cs) (h' : LegalText ds) : LegalText (cs ++ ds) := by
  induction h with
  | nil => exact h'
  | plain hc _ ih => exact .plain hc ih
  | escape hc _ ih => exact .escape hc ih

/-- A literal that can be written. Whole numbers up to the greatest integer are integers, and only greater
ones are natural numbers. -/
def Literal.Legal : Literal → Prop
  | .string text => LegalText text.toList
  | .real _ | .boolean _ => True
  | .integer value => leastInteger ≤ value ∧ value ≤ greatestInteger
  | .natural value => greatestInteger < value ∧ value ≤ greatestNatural

mutual
/-- An expression that can be written. Parentheses are put where they are needed, so any tree of legal
operands has a form. -/
def Expr.Legal : Expr → Prop
  | .literal value => value.Legal
  | .path p => p.Legal
  | .not _ e => e.Legal
  | .binary _ _ left right => left.Legal ∧ right.Legal

/-- A path whose names, arguments and indices can be written. -/
def Path.Legal : Path → Prop
  | .var x => LegalName x.name
  | .call f args => LegalName f.name ∧ Expr.LegalAll args
  | .index base i => base.Legal ∧ i.Legal
  | .member base x => base.Legal ∧ LegalName x.name
  | .method base m args => base.Legal ∧ LegalName m.name ∧ Expr.LegalAll args

/-- Every expression of the list can be written. -/
def Expr.LegalAll : List Expr → Prop
  | [] => True
  | e :: es => e.Legal ∧ Expr.LegalAll es
end

@[simp] theorem Expr.legalAll_iff {es : List Expr} :
    Expr.LegalAll es ↔ ∀ e ∈ es, e.Legal := by
  induction es with
  | nil => simp [Expr.LegalAll]
  | cons e es ih => simp [Expr.LegalAll, ih]

mutual
/-- An instruction that can be written. To print nothing has no form. -/
def Instruction.Legal : Instruction → Prop
  | .print _ es => es ≠ [] ∧ ∀ e ∈ es, e.Legal
  | .read target => target.Legal
  | .result _ value => value.Legal
  | .evaluate e => e.Legal
  | .assign _ target value => target.Legal ∧ value.Legal
  | .branch _ condition body otherwise =>
    condition.Legal ∧ Instruction.LegalAll body ∧ otherwise.Legal
  | .whileLoop _ condition body => condition.Legal ∧ Instruction.LegalAll body
  | .untilLoop _ body condition => Instruction.LegalAll body ∧ condition.Legal
  | .forLoop _ counter first last body =>
    LegalName counter.name ∧ first.Legal ∧ last.Legal ∧ Instruction.LegalAll body
  | .guarded _ condition i => condition.Legal ∧ i.Legal

/-- Branches that can be written behind the first one. -/
def Alternatives.Legal : Alternatives → Prop
  | .none => True
  | .otherwise body => Instruction.LegalAll body
  | .elsif _ condition body next =>
    condition.Legal ∧ Instruction.LegalAll body ∧ next.Legal

/-- Every instruction of the block can be written. -/
def Instruction.LegalAll : List Instruction → Prop
  | [] => True
  | i :: is => i.Legal ∧ Instruction.LegalAll is
end

@[simp] theorem Instruction.legalAll_iff {is : List Instruction} :
    Instruction.LegalAll is ↔ ∀ i ∈ is, i.Legal := by
  induction is with
  | nil => simp [Instruction.LegalAll]
  | cons i is ih => simp [Instruction.LegalAll, ih]

/-- A type over the structures that are known. -/
def Ty.Legal (known : List String) : Ty → Prop
  | .vector element => element.Legal known
  | .named name => LegalName name ∧ name ∈ known
  | _ => True

/-- The name can be written, and its type with the structures that are known. -/
def Symbol.Legal (known : List String) (s : Symbol) : Prop :=
  LegalName s.name ∧ s.type.Legal known

/-- A structure with members over the structures that are known. -/
structure Structure.Legal (known : List String) (s : Structure) : Prop where
  name : LegalName s.name
  members : ∀ m ∈ s.members, m.Legal known

/-- A constant with a type over the structures that are known. -/
structure Constant.Legal (known : List String) (c : Constant) : Prop where
  symbol : c.symbol.Legal known
  value : c.value.Legal

/-- A routine over the structures that are known. -/
structure Routine.Legal (known : List String) (r : Routine) : Prop where
  name : LegalName r.name
  params : ∀ p ∈ r.params, p.symbol.Legal known
  locals : ∀ s ∈ r.locals, s.Legal known
  body : ∀ i ∈ r.body, i.Legal
  result : ∀ t ∈ r.result, t.Legal known

/-- The names of all structures of the program, in order. -/
def Program.structureNames (p : Program) : List String := p.structures.map (·.name)

/-- A program whose structures can be declared in order, and all else after them. -/
structure Program.Legal (p : Program) : Prop where
  name : LegalName p.name
  structures : ∀ before s after, p.structures = before ++ s :: after →
    s.Legal (before.map (·.name))
  constants : ∀ c ∈ p.constants, c.Legal p.structureNames
  globals : ∀ s ∈ p.globals, s.Legal p.structureNames
  functions : ∀ r ∈ p.functions, r.Legal p.structureNames ∧ r.isProcedure = false
  procedures : ∀ r ∈ p.procedures, r.Legal p.structureNames ∧ r.isProcedure = true

theorem Program.Legal.routine {p : Program} (h : p.Legal) {r : Routine} (hr : r ∈ p.routines) :
    r.Legal p.structureNames := by
  rcases List.mem_append.1 hr with hr | hr
  · exact (h.functions r hr).1
  · exact (h.procedures r hr).1

/-- Each structure is legal over those before it. -/
theorem Program.Legal.exists_structure {p : Program} (h : p.Legal) {s : Structure}
    (hs : s ∈ p.structures) : ∃ known, s.Legal known := by
  obtain ⟨before, after, hsplit⟩ := List.append_of_mem hs
  exact ⟨_, h.structures before s after hsplit⟩

section
variable {known known' : List String}

/-- What is legal stays so when more structures are known. The four lemmas below rest on this one. -/
theorem Ty.Legal.mono (hk : known ⊆ known') {t : Ty} (h : t.Legal known) : t.Legal known' := by
  induction t with
  | vector element ih => exact ih h
  | named name => exact ⟨h.1, hk h.2⟩
  | _ => trivial

theorem Symbol.Legal.mono (hk : known ⊆ known') {s : Symbol} (h : s.Legal known) :
    s.Legal known' := ⟨h.1, h.2.mono hk⟩

theorem Structure.Legal.mono (hk : known ⊆ known') {s : Structure} (h : s.Legal known) :
    s.Legal known' := ⟨h.name, fun m hm => (h.members m hm).mono hk⟩

theorem Constant.Legal.mono (hk : known ⊆ known') {c : Constant} (h : c.Legal known) :
    c.Legal known' := ⟨h.symbol.mono hk, h.value⟩

theorem Routine.Legal.mono (hk : known ⊆ known') {r : Routine} (h : r.Legal known) :
    r.Legal known' where
  name := h.name
  params p hp := (h.params p hp).mono hk
  locals s hs := (h.locals s hs).mono hk
  body := h.body
  result t ht := (h.result t ht).mono hk

end

end Primer
