import Primer.Proofs.Typing.Conversion
import Primer.Typing.Check

/-!
The static semantics as rules: what names stand for, the types of expressions and paths, which
instructions are allowed, and which programs. The rules say nothing of an order of checks or of
positions. They find what is declared by membership, so they fix a meaning only where names are distinct,
which `Program.WellTyped` asks for.
-/

namespace Primer

/-- The parameters and locals. -/
def Routine.symbols (r : Routine) : List Symbol := r.params.map (·.symbol) ++ r.locals

/-- The name can be written through. -/
inductive Binding.Storage : Binding → Prop
  | ofParameter (h : p.mode ≠ .input) : Storage (.ofParameter p)
  | ofLocal : Storage (.ofLocal s)
  | ofGlobal : Storage (.ofGlobal s)

def Literal.type : Literal → Ty
  | string _ => .string
  | real _ => .real
  | integer _ => .integer
  | natural _ => .natural
  | boolean _ => .boolean

namespace Scope

/-- No parameter or local hides the name. -/
def Visible (cx : Scope) (name : String) : Prop := ∀ r ∈ cx.routine, ∀ s ∈ r.symbols, s.name ≠ name

/-- What the name stands for. -/
inductive Binds (cx : Scope) : String → Binding → Prop
  | ofParameter (hr : r ∈ cx.routine) (hp : p ∈ r.params) : cx.Binds p.name (.ofParameter p)
  | ofLocal (hr : r ∈ cx.routine) (hs : s ∈ r.locals) : cx.Binds s.name (.ofLocal s)
  | ofGlobal (hs : s ∈ cx.program.globals) (h : cx.Visible s.name) : cx.Binds s.name (.ofGlobal s)
  | ofConstant (hc : c ∈ cx.program.constants) (h : cx.Visible c.name) :
    cx.Binds c.name (.ofConstant c)

/-- The path denotes storage that may be written: it has no calls, and a local, a global or a
parameter that is handed back stands at its root. -/
inductive Writable (cx : Scope) : Path → Prop
  | var (hx : cx.Binds x.name b) (hb : b.Storage) : cx.Writable (.var x)
  | index (h : cx.Writable base) : cx.Writable (.index base i)
  | member (h : cx.Writable base) : cx.Writable (.member base x)

mutual
/-- The expression has a value of the type. -/
inductive HasType (cx : Scope) : Expr → Ty → Prop
  | literal : cx.HasType (.literal v) v.type
  | path (h : cx.Yields p (some t)) : cx.HasType (.path p) t
  | not (h : cx.HasType e .boolean) : cx.HasType (.not i e) .boolean
  | binary (hl : cx.HasType l a) (hr : cx.HasType r b) (ho : o.Gives a b t) :
    cx.HasType (.binary i o l r) t

/-- The path has a value of the type, or none if it ends in a call that gives none. -/
inductive Yields (cx : Scope) : Path → Option Ty → Prop
  | var (hx : cx.Binds x.name b) : cx.Yields (.var x) (some b.type)
  | call (hr : r ∈ cx.program.routines) (hf : r.name = f.name) (hargs : cx.Takes r.params args) :
    cx.Yields (.call f args) r.result
  | index (h : cx.Yields base (some (.vector t))) (hi : cx.HasType i k) (hk : k.isIntegral = true) :
    cx.Yields (.index base i) (some t)
  | member (h : cx.Yields base (some (.named s.name))) (hs : s ∈ cx.program.structures)
    (hm : m ∈ s.members) (hx : m.name = x.name) : cx.Yields (.member base x) (some m.type)
  | method (h : cx.Yields base (some (.vector t))) (hm : m ∈ Method.all) (hx : m.name = x.name)
    (hargs : cx.MethodTakes t m.params args) (hw : m.mutates = true → cx.Writable base) :
    cx.Yields (.method base x args) (m.result? t)

/-- The parameters take the arguments, one each. One that is written takes storage of its own type. -/
inductive Takes (cx : Scope) : List Parameter → List Expr → Prop
  | nil : cx.Takes [] []
  | value (hp : p.mode = .input) (he : cx.HasType e t) (ht : p.symbol.type.Accepts t)
    (h : cx.Takes ps es) : cx.Takes (p :: ps) (e :: es)
  | storage (hp : p.mode ≠ .input) (hw : cx.Writable q)
    (hq : cx.HasType (.path q) p.symbol.type) (h : cx.Takes ps es) :
    cx.Takes (p :: ps) (.path q :: es)

/-- On a vector with that element type, the parameters of a method take the arguments, one each. -/
inductive MethodTakes (cx : Scope) : Ty → List Method.Param → List Expr → Prop
  | nil : cx.MethodTakes element [] []
  | index (he : cx.HasType e t) (ht : t.isIntegral = true) (h : cx.MethodTakes element ps es) :
    cx.MethodTakes element (.index :: ps) (e :: es)
  | element (he : cx.HasType e t) (ht : element.Accepts t) (h : cx.MethodTakes element ps es) :
    cx.MethodTakes element (.element :: ps) (e :: es)
end

mutual
/-- The instruction is allowed. -/
inductive Allows (cx : Scope) : Instruction → Prop
  | print (h : ∀ e ∈ es, ∃ t, cx.HasType e t ∧ t.isScalar = true) : cx.Allows (.print i es)
  | read (hw : cx.Writable q) (hq : cx.Yields q (some t)) (ht : t.isScalar = true) :
    cx.Allows (.read q)
  | result (hr : r ∈ cx.routine) (ht : t ∈ r.result) (he : cx.HasType e u) (hu : t.Accepts u) :
    cx.Allows (.result i e)
  | evaluate (hcall : q.endsInCall = true) (hq : cx.Yields q t?) : cx.Allows (.evaluate (.path q))
  | assign (hw : cx.Writable q) (hq : cx.Yields q (some t)) (he : cx.HasType e u)
    (hu : t.Accepts u) : cx.Allows (.assign i q e)
  | branch (hc : cx.HasType c .boolean) (hbody : ∀ j ∈ body, cx.Allows j)
    (helse : cx.AllowsAlternatives next) : cx.Allows (.branch i c body next)
  | whileLoop (hc : cx.HasType c .boolean) (hbody : ∀ j ∈ body, cx.Allows j) :
    cx.Allows (.whileLoop i c body)
  | untilLoop (hbody : ∀ j ∈ body, cx.Allows j) (hc : cx.HasType c .boolean) :
    cx.Allows (.untilLoop i body c)
  | forLoop (hx : cx.Binds x.name b) (hb : b.Storage) (ht : b.type.isIntegral = true)
    (hfirst : cx.HasType first t) (hfirst' : t.isIntegral = true)
    (hlast : cx.HasType last u) (hlast' : u.isIntegral = true)
    (hbody : ∀ j ∈ body, cx.Allows j) : cx.Allows (.forLoop i x first last body)
  | guarded (hc : cx.HasType c .boolean) (h : cx.Allows j) : cx.Allows (.guarded i c j)

inductive AllowsAlternatives (cx : Scope) : Alternatives → Prop
  | none : cx.AllowsAlternatives .none
  | otherwise (hbody : ∀ j ∈ body, cx.Allows j) : cx.AllowsAlternatives (.otherwise body)
  | elsif (hc : cx.HasType c .boolean) (hbody : ∀ j ∈ body, cx.Allows j)
    (hnext : cx.AllowsAlternatives next) : cx.AllowsAlternatives (.elsif i c body next)
end

end Scope

/-- The expression is built from literals and the names of constants among the given ones. -/
inductive ConstantExpr (earlier : List Constant) : Expr → Prop
  | literal : ConstantExpr earlier (.literal v)
  | name (hc : c ∈ earlier) (hx : c.name = x.name) : ConstantExpr earlier (.path (.var x))
  | not (h : ConstantExpr earlier e) : ConstantExpr earlier (.not i e)
  | binary (hl : ConstantExpr earlier l) (hr : ConstantExpr earlier r) :
    ConstantExpr earlier (.binary i o l r)

/-- The structure that the type names, if any, is declared. -/
inductive Program.Knows (p : Program) : Ty → Prop
  | scalar (h : t.isScalar = true) : p.Knows t
  | vector (h : p.Knows t) : p.Knows (.vector t)
  | named (hs : s ∈ p.structures) : p.Knows (.named s.name)

namespace Program

/-- No name is declared twice on the level of the program, within a structure, or among the parameters
and locals of a routine. -/
structure DistinctNames (p : Program) : Prop where
  declared : (p.declaredIdents.map (·.name)).Nodup
  members : ∀ s ∈ p.structures, (s.members.map (·.name)).Nodup
  symbols : ∀ r ∈ p.routines, (r.symbols.map (·.name)).Nodup

/-- The program obeys the rules of the language. -/
structure WellTyped (p : Program) : Prop where
  name : p.name ≠ "main"
  distinct : p.DistinctNames
  /-- No parameter or local hides a structure, a function or a procedure. -/
  apart : ∀ r ∈ p.routines, ∀ s ∈ r.symbols,
    (∀ t ∈ p.structures, t.name ≠ s.name) ∧ ∀ q ∈ p.routines, q.name ≠ s.name
  memberTypes : ∀ s ∈ p.structures, ∀ m ∈ s.members, p.Knows m.type
  constantTypes : ∀ c ∈ p.constants, p.Knows c.symbol.type
  globalTypes : ∀ s ∈ p.globals, p.Knows s.type
  symbolTypes : ∀ r ∈ p.routines, ∀ s ∈ r.symbols, p.Knows s.type
  resultTypes : ∀ r ∈ p.routines, ∀ t ∈ r.result, p.Knows t
  /-- A constant is built from those before it, and its value suits its type. -/
  constants : ∀ earlier c later, p.constants = earlier ++ c :: later →
    ConstantExpr earlier c.value ∧
      ∃ t, Scope.HasType ⟨p, none⟩ c.value t ∧ c.symbol.type.Accepts t
  bodies : ∀ r ∈ p.routines, ∀ i ∈ r.body, Scope.Allows ⟨p, some r⟩ i
  /-- A function of the program's name takes the program's arguments and gives an integer. -/
  entry : ∃ f ∈ p.functions, f.name = p.name ∧
    (∃ args, f.params = [⟨.input, args⟩] ∧ args.type = .vector .string) ∧ f.result = some .integer

end Program

end Primer
