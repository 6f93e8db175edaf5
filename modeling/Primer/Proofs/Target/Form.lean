import Mathlib.Data.List.Forall2
import Primer.Target.Program

/-!
The C++ expressions that the text consists of, as trees. An operand is a `Primary`, which needs no
parentheses, so that the grouping of a `Form` can be read off its text without the precedences of C++.
A name in a form is that of the program, and `text` writes the C++ one. The forms of expressions have
the texts that are written for them (`text_form`), and what a name is declared with is `Declared`.
-/

namespace Primer

def Binding.symbol : Binding → Symbol
  | ofParameter p => p.symbol
  | ofLocal s | ofGlobal s => s
  | ofConstant c => c.symbol

namespace Target

/-- The C++ types of the text. -/
inductive CppType where
  | void
  | bool
  | int
  | longLong
  | unsignedLongLong
  | double
  | char
  | string
  | vector (element : CppType)
  /-- The type for the structure of that name. -/
  | struct (name : String)
deriving DecidableEq, Repr

namespace CppType

def text : CppType → String
  | void => "void"
  | bool => "bool"
  | int => "int"
  | longLong => "long long"
  | unsignedLongLong => "unsigned long long"
  | double => "double"
  | char => "char"
  | string => "std::string"
  | vector element => "std::vector<" ++ element.text ++ ">"
  | struct s => name s

def ofTy : Ty → CppType
  | .boolean => bool
  | .integer => longLong
  | .natural => unsignedLongLong
  | .real => double
  | .char => char
  | .string => string
  | .vector element => vector (ofTy element)
  | .named s => struct s

/-- The type that a routine with that result is declared with. -/
def ofResult (result : Option Ty) : CppType := (result.map ofTy).getD void

@[simp] theorem text_ofTy (t : Ty) : (ofTy t).text = type t := by
  induction t with
  | vector element ih => simp only [ofTy, text, ih, type]
  | _ => rfl

end CppType

/-! ## Declarations -/

/-- The declaration of what a name stands for, without an initial value. -/
def bindingText : Binding → String
  | .ofParameter p => parameter p
  | .ofLocal s | .ofGlobal s => declaration s
  | .ofConstant c => "const " ++ declaration c.symbol

/-- What a name is declared with: a type that may be constant and a reference. -/
structure Declared where
  isConst : Bool
  isReference : Bool
  type : CppType
deriving DecidableEq, Repr

namespace Declared

def text (d : Declared) : String :=
  (if d.isConst then "const " else "") ++ d.type.text ++ (if d.isReference then "&" else "")

def ofParameter (p : Parameter) : Declared :=
  let isCopied := p.symbol.type.isScalar && p.symbol.type != .string
  { isConst := !p.mode.isWritable && !isCopied
    isReference := p.mode.isWritable || !isCopied
    type := .ofTy p.symbol.type }

def ofBinding : Binding → Declared
  | .ofParameter p => ofParameter p
  | .ofLocal s | .ofGlobal s => ⟨false, false, .ofTy s.type⟩
  | .ofConstant c => ⟨true, false, .ofTy c.symbol.type⟩

/-- What the helper for a method gives back on vectors of those elements. -/
def ofMethod (m : Method) (element : CppType) : Declared :=
  match m.yield with
  | .nothing => ⟨false, false, .void⟩
  | .element => ⟨!m.mutates, !m.mutates, element⟩
  | .size => ⟨false, false, .unsignedLongLong⟩

@[simp] theorem type_ofBinding (b : Binding) : (ofBinding b).type = .ofTy b.type := by
  cases b <;> rfl

@[simp] theorem type_ofMethod (m : Method) (t : Ty) :
    (ofMethod m (.ofTy t)).type = .ofResult (m.result? t) := by
  cases h : m.yield <;> simp [ofMethod, Method.result?, h, CppType.ofResult, CppType.ofTy]

theorem parameter_eq (p : Parameter) : parameter p = (ofParameter p).text ++ " " ++ name p.name := by
  rw [parameter, text, ofParameter, CppType.text_ofTy]
  cases p.mode.isWritable <;> cases p.symbol.type.isScalar && p.symbol.type != .string <;>
    simp [String.append_assoc]

/-- Each declaration in the text gives the name the type that it is declared with. -/
theorem bindingText_eq (b : Binding) :
    bindingText b = (ofBinding b).text ++ " " ++ name b.symbol.name := by
  cases b with
  | ofParameter p => exact parameter_eq p
  | ofConstant c =>
    simp [bindingText, ofBinding, text, declaration, Binding.symbol, String.append_assoc]
  | _ => simp [bindingText, ofBinding, text, declaration, Binding.symbol]

theorem signature_eq (r : Routine) : signature r = (CppType.ofResult r.result).text ++ " " ++
    name r.name ++ "(" ++ ", ".intercalate (r.params.map parameter) ++ ")" := by
  cases h : r.result <;> simp [signature, CppType.ofResult, CppType.text, h]

/-- The helpers are templates over the type of the elements, one for each method, that give this
back. -/
theorem helpers_declare : List.Forall₂ (fun m line => ∃ rest, line = "template <typename T> " ++
    (ofMethod m (.struct "T")).text ++ " " ++ helperStem ++ m.name ++ "(" ++
      (⟨!m.mutates, true, .vector (.struct "T")⟩ : Declared).text ++ " v" ++ rest)
    Method.all helpers.tail := by
  have hname : name "T" = "T" := by decide
  simp only [Method.all, helpers, List.tail_cons, List.forall₂_cons, List.forall₂_nil_left_iff, ofMethod,
    text, CppType.text, hname]
  refine ⟨⟨", const algo_elem<T>& x) \x7b v.push_back(x); \x7d", rfl⟩,
    ⟨", unsigned long long i, const algo_elem<T>& x) \x7b v.insert(v.begin() + i, x); \x7d", rfl⟩,
    ⟨", unsigned long long i) \x7b v.erase(v.begin() + i); \x7d", rfl⟩,
    ⟨") \x7b T x = v.back(); v.pop_back(); return x; \x7d", rfl⟩, ⟨") \x7b v.clear(); \x7d", rfl⟩,
    ⟨") \x7b return v.size(); \x7d", rfl⟩, ⟨", unsigned long long i) \x7b return v.at(i); \x7d", rfl⟩,
    trivial⟩

end Declared

/-! ## Expressions -/

mutual
/-- An expression that stands as an operand as it is. -/
inductive Primary where
  | longLong (value : Int)
  | unsignedLongLong (value : Nat)
  | int (value : Nat)
  | double (value : Binary64)
  | string (text : String)
  | bool (value : Bool)
  | var (x : String)
  | call (f : String) (args : List Form)
  | element (base : Primary) (index : Form)
  | member (base : Primary) (x : String)
  | helper (method : String) (base : Primary) (args : List Form)
  | cast (type : CppType) (form : Form)
  | paren (form : Form)

inductive Form where
  | primary (p : Primary)
  | not (operand : Primary)
  | binary (o : Operator) (left right : Primary)
end

mutual
def Primary.text : Primary → String
  | .longLong value => toString value ++ "LL"
  | .unsignedLongLong value => toString value ++ "ULL"
  | .int value => toString value
  | .double value => value.literalText
  | .string text => "\"" ++ text ++ "\"s"
  | .bool value => toString value
  | .var x => name x
  | .call f args => name f ++ "(" ++ ", ".intercalate (Form.texts args) ++ ")"
  | .element base index => base.text ++ ".at(" ++ index.text ++ ")"
  | .member base x => base.text ++ "." ++ name x
  | .helper m base args =>
    helperStem ++ m ++ "(" ++ ", ".intercalate (base.text :: Form.texts args) ++ ")"
  | .cast type form => cast type.text form.text
  | .paren form => "(" ++ form.text ++ ")"

def Form.text : Form → String
  | .primary p => p.text
  | .not operand => "!" ++ operand.text
  | .binary o left right => left.text ++ " " ++ operator o ++ " " ++ right.text

def Form.texts : List Form → List String
  | [] => []
  | f :: fs => f.text :: Form.texts fs
end

namespace Form

def operand : Form → Primary
  | primary p => p
  | f => .paren f

/-- The type that a natural operand is converted to for an operation on the type `common`. -/
def conversion? (type? common : Option Ty) : Option CppType :=
  match type?, common with
  | some .natural, some .integer => some .longLong
  | some .natural, some .real => some .double
  | _, _ => none

/-- The operand, converted to the type of the operation where needed. -/
def converted (f : Form) (type? common : Option Ty) : Primary :=
  match conversion? type? common with
  | some target => .cast target f
  | none => f.operand

end Form

def literalForm : Literal → Primary
  | .string text => .string text
  | .real value => .double value
  | .integer value =>
    if value = leastInteger then .paren (.binary .subtract (.longLong (value + 1)) (.int 1))
    else .longLong value
  | .natural value => .unsignedLongLong value
  | .boolean value => .bool value

mutual
def form (cx : Scope) : Expr → Form
  | .literal value => .primary (literalForm value)
  | .path p => .primary (pathForm cx p)
  | .not _ e => .not (form cx e).operand
  | .binary _ o left right =>
    let l := (cx.typeOf left).toOption
    let r := (cx.typeOf right).toOption
    let common := commonType? o l r
    .binary o ((form cx left).converted l common) ((form cx right).converted r common)

def pathForm (cx : Scope) : Path → Primary
  | .var x => .var x.name
  | .call f args => .call f.name (forms cx args)
  | .index base i => .element (pathForm cx base) (form cx i)
  | .member base x => .member (pathForm cx base) x.name
  | .method base m args => .helper m.name (pathForm cx base) (forms cx args)

def forms (cx : Scope) : List Expr → List Form
  | [] => []
  | e :: es => form cx e :: forms cx es
end

variable {cx : Scope}

theorem conversion?_eq_map (type? common : Option Ty) :
    Target.conversion? type? common = (Form.conversion? type? common).map CppType.text := by
  unfold Target.conversion? Form.conversion?
  split <;> simp_all [CppType.text, type]

theorem text_literalForm (v : Literal) : (literalForm v).text = literal v := by
  cases v with
  | integer value =>
    simp only [literalForm, literal]
    split
    · simp only [Primary.text, Form.text, operator, Operator.text, String.append_assoc]
      rfl
    · rfl
  | _ => rfl

theorem text_operand (e : Expr) :
    (form cx e).operand.text = e.parenthesize (form cx e).text := by
  cases e <;> rfl

theorem text_converted (e : Expr) (type? common : Option Ty) :
    ((form cx e).converted type? common).text = converted e (form cx e).text type? common := by
  rw [Form.converted, converted, conversion?_eq_map]
  cases Form.conversion? type? common with
  | none => exact text_operand e
  | some target => rfl

mutual
/-- The form of an expression has the text that is written for it. -/
theorem text_form : ∀ e : Expr, (form cx e).text = expr cx e
  | .literal v => text_literalForm v
  | .path p => text_pathForm p
  | .not i e => by rw [form, Form.text, text_operand, text_form e, expr]
  | .binary i o l r => by
    rw [form, Form.text, text_converted, text_converted, text_form l, text_form r, expr]

theorem text_pathForm : ∀ p : Path, (pathForm cx p).text = path cx p
  | .var x => rfl
  | .call f args => by rw [pathForm, Primary.text, texts_forms args, path]
  | .index base i => by rw [pathForm, Primary.text, text_pathForm base, text_form i, path]
  | .member base x => by rw [pathForm, Primary.text, text_pathForm base, path]
  | .method base m args => by
    rw [pathForm, Primary.text, text_pathForm base, texts_forms args, path]

theorem texts_forms : ∀ es : List Expr, Form.texts (forms cx es) = exprs cx es
  | [] => rfl
  | e :: es => by rw [forms, Form.texts, text_form e, texts_forms es, exprs]
end

/-! ## The test of a loop -/

/-- The type of a loop's test, which compares its counter with its last value. -/
def testType? (cx : Scope) (counter : Ident) (last : Expr) : Option Ty :=
  commonType? .lessOrEqual ((cx.lookup? counter.name).map (·.type)) (cx.typeOf last).toOption

def counterForm (cx : Scope) (counter : Ident) (last : Expr) : Primary :=
  (Form.primary (.var counter.name)).converted ((cx.lookup? counter.name).map (·.type))
    (testType? cx counter last)

def boundForm (cx : Scope) (counter : Ident) (last : Expr) : Primary :=
  (form cx last).converted (cx.typeOf last).toOption (testType? cx counter last)

theorem text_counterForm (counter : Ident) (last : Expr) :
    (counterForm cx counter last).text =
      ((Target.conversion? ((cx.lookup? counter.name).map (·.type))
        (testType? cx counter last)).map (cast · (name counter.name))).getD (name counter.name) := by
  rw [counterForm, Form.converted, conversion?_eq_map]
  cases Form.conversion? ((cx.lookup? counter.name).map (·.type)) (testType? cx counter last) <;> rfl

/-- A loop tests the form of its counter against that of its last value. -/
theorem instruction_forLoop_eq (i : Position) (x : Ident) (first last : Expr)
    (body : List Instruction) : instruction cx (.forLoop i x first last body) =
      Step.line ("for (" ++ name x.name ++ " = " ++ (form cx first).text ++ "; " ++
        (counterForm cx x last).text ++ " <= " ++ (boundForm cx x last).text ++ "; ++" ++
          name x.name ++ ") \x7b") ++
        [.indented (block cx body)] ++ Step.line "\x7d" := by
  rw [instruction, text_counterForm, boundForm, text_converted, text_form, text_form]
  rfl

end Target

end Primer
