import Primer.Program
import Primer.Typing.Conversion
import Primer.Typing.Diagnostic
import Primer.Typing.Method

/-!
What names mean at a place of a program, and the types of expressions there. Parameters hide locals,
locals hide globals, and globals hide constants.
-/

namespace Primer

/-- What a name stands for. -/
inductive Binding where
  | ofParameter (p : Parameter)
  | ofLocal (s : Symbol)
  | ofGlobal (s : Symbol)
  | ofConstant (c : Constant)

namespace Binding

def type : Binding → Ty
  | ofParameter p => p.symbol.type
  | ofLocal s | ofGlobal s => s.type
  | ofConstant c => c.symbol.type

/-- Whether what the name stands for can be assigned to. -/
def isWritable : Binding → Bool
  | ofParameter p => p.mode.isWritable
  | ofLocal _ | ofGlobal _ => true
  | ofConstant _ => false

end Binding

/-- A program and, within a body, the routine it belongs to. -/
structure Scope where
  program : Program
  routine : Option Routine

/-- The value or, for lack of one, the diagnostic. -/
def demand (a? : Option α) (position : Position) (cause : Diagnostic.Cause) : Except Diagnostic α :=
  match a? with
  | some a => .ok a
  | none => .error ⟨position, cause⟩

/-- The diagnostic unless the condition holds. -/
def require (condition : Bool) (position : Position) (cause : Diagnostic.Cause) :
    Except Diagnostic Unit :=
  if condition then .ok () else .error ⟨position, cause⟩

namespace Scope

def lookup? (cx : Scope) (name : String) : Option Binding :=
  ((cx.routine.bind (·.param? name)).map .ofParameter) <|>
  ((cx.routine.bind (·.local? name)).map .ofLocal) <|>
  ((cx.program.global? name).map .ofGlobal) <|>
  ((cx.program.constant? name).map .ofConstant)

/-- Whether the path denotes storage that may be written. -/
def isWritable (cx : Scope) (p : Path) : Bool :=
  p.isStorage && ((cx.lookup? p.root.name).map (·.isWritable)).getD false

/-- The type of a member of a value. -/
def memberType (cx : Scope) (type : Ty) (member : Ident) : Except Diagnostic Ty := do
  let name ← demand type.structureName? member.position (.notAStructure type member.name)
  let s ← demand (cx.program.structure? name) member.position (.undefinedStructure name)
  let symbol ← demand (s.member? member.name) member.position (.undefinedMember name member.name)
  return symbol.type

/-- Checks that a value of the type `given` at that place may stand for an index. -/
def requireIndex (position : Position) (given : Ty) : Except Diagnostic Unit :=
  require given.isIntegral position (.typeMismatch .integer given)

/-- Checks that a value of the type `given` at that place is accepted. -/
def requireAccepted (position : Position) (expected given : Ty) : Except Diagnostic Unit :=
  require (expected.accepts given) position (.typeMismatch expected given)

mutual
/-- The type of an expression that has to have a value. -/
def typeOf (cx : Scope) : Expr → Except Diagnostic Ty
  | .literal (.string _) => return .string
  | .literal (.real _) => return .real
  | .literal (.integer _) => return .integer
  | .literal (.natural _) => return .natural
  | .literal (.boolean _) => return .boolean
  | .path p => do
    demand (← cx.typeOfPath p) p.root.position (.noValue p.root.name)
  | .not position e => do
    let type ← cx.typeOf e
    demand type.negated? position (.invalidNegation type)
  | .binary position o left right => do
    let l ← cx.typeOf left
    let r ← cx.typeOf right
    demand (o.result? l r) position (.invalidOperands o l r)

/-- The type of a path, or nothing if it ends in a call that gives no value. -/
def typeOfPath (cx : Scope) : Path → Except Diagnostic (Option Ty)
  | .var x => do
    let binding ← demand (cx.lookup? x.name) x.position (.undefinedIdentifier x.name)
    return some binding.type
  | .call f args => do
    let routine ← demand (cx.program.routine? f.name) f.position (.undefinedFunction f.name)
    require (routine.params.length == args.length) f.position
      (.numberOfArguments routine.name routine.params.length args.length)
    cx.checkArguments f routine.params args
    return routine.result
  | .index base i => do
    let type ← demand (← cx.typeOfPath base) base.last.position (.noValue base.last.name)
    let element ← demand type.element? base.last.position (.notAVector type)
    requireIndex (i.position?.getD base.last.position) (← cx.typeOf i)
    return some element
  | .member base x => do
    let type ← demand (← cx.typeOfPath base) base.last.position (.noValue base.last.name)
    return some (← cx.memberType type x)
  | .method base m args => do
    let type ← demand (← cx.typeOfPath base) base.last.position (.noValue base.last.name)
    let element ← demand type.element? m.position (.undefinedMethod type m.name)
    let method ← demand (Method.ofName? m.name) m.position (.undefinedMethod type m.name)
    require (method.params.length == args.length) m.position
      (.numberOfArguments method.name method.params.length args.length)
    cx.checkMethodArguments m element method.params args
    require (!method.mutates || cx.isWritable base) m.position (.notWritable m.name)
    return method.result? element

/-- Checks the arguments of a call of `f`. What the routine may write is handed to it as storage of
exactly the parameter's type. -/
def checkArguments (cx : Scope) (f : Ident) : List Parameter → List Expr → Except Diagnostic Unit
  | p :: ps, arg :: args => do
    if p.mode.isWritable then
      match arg with
      | .path target => do
        require (cx.isWritable target) target.root.position (.notWritable p.name)
        let given ← demand (← cx.typeOfPath target) target.root.position (.noValue target.root.name)
        require (given == p.symbol.type) target.root.position (.typeMismatch p.symbol.type given)
      | arg => require false (arg.position?.getD f.position) (.notWritable p.name)
    else
      requireAccepted (arg.position?.getD f.position) p.symbol.type (← cx.typeOf arg)
    cx.checkArguments f ps args
  | _, _ => .ok ()

/-- Checks the arguments of a call of the method `m` on a vector with that element type. -/
def checkMethodArguments (cx : Scope) (m : Ident) (element : Ty) :
    List Method.Param → List Expr → Except Diagnostic Unit
  | p :: ps, arg :: args => do
    let given ← cx.typeOf arg
    match p with
    | .index => requireIndex (arg.position?.getD m.position) given
    | .element => requireAccepted (arg.position?.getD m.position) element given
    cx.checkMethodArguments m element ps args
  | _, _ => .ok ()
end

/-- The type of an expression that has to suit the expected one. Where the expression has no place of
its own, `fallback` takes it. -/
def expectType (cx : Scope) (e : Expr) (expected : Ty) (fallback : Position) :
    Except Diagnostic Ty := do
  let given ← cx.typeOf e
  requireAccepted (e.position?.getD fallback) expected given
  return given

end Scope

end Primer
