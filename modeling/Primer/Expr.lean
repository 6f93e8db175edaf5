import Primer.Text.Location
import Primer.Binary64
import Primer.Operator

/-!
Expressions. A `Path` starts at a variable or a call and goes on by indices, members and method calls,
each applied to the path before it. Groups in parentheses leave no trace in the tree.
-/

namespace Primer

/-- A name and the place where it stands. -/
structure Ident where
  position : Position
  name : String
deriving DecidableEq, Repr

/-- The least integer of 64 bits. -/
def leastInteger : Int := -9223372036854775808

/-- The greatest integer of 64 bits. -/
def greatestInteger : Int := 9223372036854775807

/-- The greatest natural number of 64 bits. -/
def greatestNatural : Nat := 18446744073709551615

inductive Literal where
  /-- A string as written between its quotes, escapes included. -/
  | string (text : String)
  | real (value : Binary64)
  | integer (value : Int)
  /-- A whole number that is too large for an integer. -/
  | natural (value : Nat)
  | boolean (value : Bool)
deriving DecidableEq, Repr

mutual
/-- What has a value. Places are kept for operators and for names. -/
inductive Expr where
  | literal (value : Literal)
  | path (path : Path)
  | not (position : Position) (operand : Expr)
  | binary (position : Position) (operator : Operator) (left right : Expr)

/-- What a name leads to, from a variable or a call on. A part of the path has no place besides that of its
name: it starts with the name, so in whatever is read from a text the two places are the same. -/
inductive Path where
  | var (ident : Ident)
  | call (ident : Ident) (args : List Expr)
  | index (base : Path) (index : Expr)
  | member (base : Path) (ident : Ident)
  | method (base : Path) (ident : Ident) (args : List Expr)
end

namespace Path

/-- The name that the path starts with. -/
def root : Path → Ident
  | var ident | call ident _ => ident
  | index base _ | member base _ | method base _ _ => base.root

/-- The last name on the path. -/
def last : Path → Ident
  | var ident | call ident _ | member _ ident | method _ ident _ => ident
  | index base _ => base.last

/-- A path without calls denotes storage. -/
def isStorage : Path → Bool
  | var _ => true
  | call _ _ | method _ _ _ => false
  | index base _ | member base _ => base.isStorage

/-- Whether the path ends in a call. -/
def endsInCall : Path → Bool
  | call _ _ | method _ _ _ => true
  | var _ | index _ _ | member _ _ => false

end Path

/-- A name on a path with what directly follows it: arguments in parentheses if it is called, then
indices in brackets. -/
structure Segment where
  ident : Ident
  args : Option (List Expr)
  indices : List Expr

namespace Segment

/-- The path that the segment starts. -/
def start (s : Segment) : Path :=
  s.indices.foldl .index <|
    match s.args with
    | none => .var s.ident
    | some args => .call s.ident args

/-- The path that the segment continues after a point. -/
def extend (s : Segment) (base : Path) : Path :=
  s.indices.foldl .index <|
    match s.args with
    | none => .member base s.ident
    | some args => .method base s.ident args

/-- The segment with one more index. -/
def addIndex (s : Segment) (index : Expr) : Segment :=
  { s with indices := s.indices ++ [index] }

end Segment

/-- The segments of a path from the last one to the first. -/
def Path.segmentsRev : Path → List Segment
  | var ident => [⟨ident, none, []⟩]
  | call ident args => [⟨ident, some args, []⟩]
  | index base i => base.segmentsRev.modifyHead (·.addIndex i)
  | member base ident => ⟨ident, none, []⟩ :: base.segmentsRev
  | method base ident args => ⟨ident, some args, []⟩ :: base.segmentsRev

/-- The segments of a path as they are written. -/
def Path.segments (p : Path) : List Segment := p.segmentsRev.reverse

namespace Expr

/-- Whether the expression is a single value. -/
def isLeaf : Expr → Bool
  | literal _ | path _ => true
  | not _ _ | binary _ _ _ _ => false

/-- The place of an expression; literals have none. -/
def position? : Expr → Option Position
  | literal _ => none
  | path p => some p.root.position
  | not position _ | binary position _ _ _ => some position

/-- The path that the expression consists of. -/
def path? : Expr → Option Path
  | path p => some p
  | _ => none

end Expr

mutual
/-- Whether two expressions are equal, their places included. -/
def Expr.beq : Expr → Expr → Bool
  | .literal v, .literal w => v == w
  | .path p, .path q => p.beq q
  | .not i e, .not j f => i == j && e.beq f
  | .binary i o a b, .binary j q c d => i == j && o == q && a.beq c && b.beq d
  | _, _ => false

/-- Whether two paths are equal, their places included. -/
def Path.beq : Path → Path → Bool
  | .var x, .var y => x == y
  | .call x as, .call y bs => x == y && Expr.beqList as bs
  | .index p e, .index q f => p.beq q && e.beq f
  | .member p x, .member q y => p.beq q && x == y
  | .method p x as, .method q y bs => p.beq q && x == y && Expr.beqList as bs
  | _, _ => false

def Expr.beqList : List Expr → List Expr → Bool
  | [], [] => true
  | a :: as, b :: bs => a.beq b && Expr.beqList as bs
  | _, _ => false
end

mutual
theorem Expr.beq_iff_eq : ∀ {a b : Expr}, a.beq b = true ↔ a = b
  | .literal v, b => by cases b <;> simp [Expr.beq]
  | .path p, b => by cases b <;> simp [Expr.beq, Path.beq_iff_eq (a := p)]
  | .not i e, b => by cases b <;> simp [Expr.beq, Expr.beq_iff_eq (a := e)]
  | .binary i o l r, b => by
    cases b <;> simp [Expr.beq, Expr.beq_iff_eq (a := l), Expr.beq_iff_eq (a := r), and_assoc]

theorem Path.beq_iff_eq : ∀ {a b : Path}, a.beq b = true ↔ a = b
  | .var x, b => by cases b <;> simp [Path.beq]
  | .call x es, b => by cases b <;> simp [Path.beq, Expr.beqList_iff_eq (a := es)]
  | .index p e, b => by
    cases b <;> simp [Path.beq, Path.beq_iff_eq (a := p), Expr.beq_iff_eq (a := e)]
  | .member p x, b => by cases b <;> simp [Path.beq, Path.beq_iff_eq (a := p)]
  | .method p x es, b => by
    cases b <;>
      simp [Path.beq, Path.beq_iff_eq (a := p), Expr.beqList_iff_eq (a := es), and_assoc]

theorem Expr.beqList_iff_eq : ∀ {a b : List Expr}, Expr.beqList a b = true ↔ a = b
  | [], bs => by cases bs <;> simp [Expr.beqList]
  | a :: as, bs => by
    cases bs <;> simp [Expr.beqList, Expr.beq_iff_eq (a := a), Expr.beqList_iff_eq (a := as)]
end

instance : DecidableEq Expr := fun _ _ => decidable_of_iff _ Expr.beq_iff_eq

instance : DecidableEq Path := fun _ _ => decidable_of_iff _ Path.beq_iff_eq

end Primer
