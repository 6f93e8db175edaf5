import Primer.Grammar.Lexical
import Primer.Proofs.Syntax.Nodes

/-!
What has a place in a program, in the order in which it is read: names, operators, and the keywords of
negations and instructions. An assignment has a place too, but no word of its own; it stands where the
name of its target does.
-/

namespace Primer

inductive Item where
  | name (x : Ident)
  | keyword (word : String) (position : Position)
  | operator (o : Operator) (position : Position)
  /-- An assignment to a path that starts with that name. -/
  | assignment (root : Ident) (position : Position)

namespace Item

def position : Item → Position
  | name x => x.position
  | keyword _ position | operator _ position | assignment _ position => position

/-- What stands at the place. -/
def text : Item → String
  | name x | assignment x _ => x.name
  | keyword word _ => word
  | operator o _ => o.text

/-- Whether the text of the item belongs to no other item. -/
def isToken : Item → Bool
  | assignment _ _ => false
  | name _ | keyword _ _ | operator _ _ => true

/-- Whether the text of the item ends only where no character of a name follows. -/
def isWord : Item → Bool
  | operator o _ => o.isBoolean
  | name _ | keyword _ _ | assignment _ _ => true

/-- The item is what the characters `cs` start with, up to `rest`, and they are what its place leaves of
the text. -/
structure Spans (x : Item) (cs rest : List Char) : Prop where
  place : x.position.toEnd = byteCount cs
  text : cs = x.text.toList ++ rest
  ends : x.isWord = true → ∀ c ∈ rest.head?, isNameChar c = false
  nonempty : x.text ≠ ""

end Item

mutual
def Expr.items : Expr → List Item
  | .literal _ => []
  | .path p => p.items
  | .not position e => .keyword "not" position :: e.items
  | .binary position o left right => left.items ++ .operator o position :: right.items

def Path.items : Path → List Item
  | .var x => [.name x]
  | .call f args => .name f :: Expr.itemsAll args
  | .index base i => base.items ++ i.items
  | .member base x => base.items ++ [.name x]
  | .method base m args => base.items ++ .name m :: Expr.itemsAll args

def Expr.itemsAll : List Expr → List Item
  | [] => []
  | e :: es => e.items ++ Expr.itemsAll es
end

@[simp] theorem Expr.itemsAll_eq_flatMap (es : List Expr) :
    Expr.itemsAll es = es.flatMap Expr.items := by
  induction es with
  | nil => rfl
  | cons e es ih => rw [Expr.itemsAll, ih, List.flatMap_cons]

theorem Path.root_mem_items : ∀ q : Path, .name q.root ∈ q.items
  | .var x => by simp [Path.items, Path.root]
  | .call f args => by simp [Path.items, Path.root]
  | .index base i => List.mem_append_left _ base.root_mem_items
  | .member base x => List.mem_append_left _ base.root_mem_items
  | .method base m args => List.mem_append_left _ base.root_mem_items

theorem Path.last_mem_items : ∀ q : Path, .name q.last ∈ q.items
  | .var x => by simp [Path.items, Path.last]
  | .call f args => by simp [Path.items, Path.last]
  | .index base i => List.mem_append_left _ base.last_mem_items
  | .member base x => by simp [Path.items, Path.last]
  | .method base m args => by simp [Path.items, Path.last]

mutual
def Instruction.items : Instruction → List Item
  | .print position es => .keyword "print" position :: es.flatMap Expr.items
  | .read target => target.items
  | .result position value => .keyword "return" position :: value.items
  | .evaluate e => e.items
  | .assign position target value =>
    .assignment target.root position :: (target.items ++ value.items)
  | .branch position condition body otherwise =>
    .keyword "if" position :: (condition.items ++ Instruction.itemsAll body ++ otherwise.items)
  | .whileLoop position condition body =>
    .keyword "while" position :: (condition.items ++ Instruction.itemsAll body)
  | .untilLoop position body condition =>
    .keyword "loop" position :: (Instruction.itemsAll body ++ condition.items)
  | .forLoop position counter first last body =>
    .keyword "for" position :: .name counter ::
      (first.items ++ last.items ++ Instruction.itemsAll body)
  | .guarded position condition i => .keyword "on" position :: (condition.items ++ i.items)

def Alternatives.items : Alternatives → List Item
  | .none => []
  | .otherwise body => Instruction.itemsAll body
  | .elsif position condition body next =>
    .keyword "elsif" position :: (condition.items ++ Instruction.itemsAll body ++ next.items)

def Instruction.itemsAll : List Instruction → List Item
  | [] => []
  | i :: is => i.items ++ Instruction.itemsAll is
end

@[simp] theorem Instruction.itemsAll_eq_flatMap (is : List Instruction) :
    Instruction.itemsAll is = is.flatMap Instruction.items := by
  induction is with
  | nil => rfl
  | cons i is ih => rw [Instruction.itemsAll, ih, List.flatMap_cons]

def Symbol.items (s : Symbol) : List Item := [.name s.ident]

def Structure.items (s : Structure) : List Item := .name s.ident :: s.members.flatMap Symbol.items

def Constant.items (c : Constant) : List Item := c.symbol.items ++ c.value.items

def Routine.items (r : Routine) : List Item :=
  .name r.ident :: (r.params.flatMap (·.symbol.items) ++ r.locals.flatMap Symbol.items ++
    r.body.flatMap Instruction.items)

def Declaration.items : Declaration → List Item
  | .ofStructure s => s.items
  | .ofConstant c => c.items
  | .ofGlobal s => s.items
  | .ofRoutine r => r.items

def Program.items (p : Program) : List Item :=
  .name p.ident :: (p.structures.flatMap Structure.items ++ p.constants.flatMap Constant.items ++
    p.globals.flatMap Symbol.items ++ p.routines.flatMap Routine.items)

end Primer
