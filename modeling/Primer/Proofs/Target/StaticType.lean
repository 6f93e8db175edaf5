import Primer.Proofs.Target.Form
import Primer.Proofs.Typing.Scope

/-!
The static types of C++ expressions, and that the text computes in the types of the language. Names have
the types that they are declared with, with `const` and references dropped, and arithmetic follows the
usual conversions of C++: on operands of different types it works in `double`, or else in an unsigned
type, or else in a signed one. The last differs from the language, where a natural number and an integer
give an integer; the conversions in the text make up for it.
-/

namespace Primer.Target

namespace CppType

def isArithmetic : CppType → Bool
  | bool | char | int | longLong | unsignedLongLong | double => true
  | _ => false

/-- The type that operands of two arithmetic types are converted to. -/
def usual (a b : CppType) : CppType :=
  if a = double ∨ b = double then double
  else if a = unsignedLongLong ∨ b = unsignedLongLong then unsignedLongLong
  else if a = longLong ∨ b = longLong then longLong
  else int

/-- Whether `+` joins texts of the types. -/
def concatenates (a b : CppType) : Bool :=
  (a == string && (b == string || b == char)) || (a == char && b == string)

/-- The type of an operation on operands of the two types, if C++ has it. -/
def operation? (o : Operator) (a b : CppType) : Option CppType :=
  let arithmetic := a.isArithmetic && b.isArithmetic
  match o with
  | .and | .or => if arithmetic then some bool else none
  | .less | .greater | .lessOrEqual | .greaterOrEqual | .equal | .notEqual =>
    if arithmetic || (a == string && b == string) then some bool else none
  | .add =>
    if arithmetic then some (a.usual b) else if a.concatenates b then some string else none
  | .subtract | .multiply | .divide => if arithmetic then some (a.usual b) else none
  | .remainder =>
    if arithmetic && a != double && b != double then some (a.usual b) else none

end CppType

mutual
/-- The static type of an operand, if it has one. -/
def Primary.type? (cx : Scope) : Primary → Option CppType
  | .longLong _ => some .longLong
  | .unsignedLongLong _ => some .unsignedLongLong
  | .int _ => some .int
  | .double _ => some .double
  | .string _ => some .string
  | .bool _ => some .bool
  | .var x => do
    let b ← cx.lookup? x
    return (Declared.ofBinding b).type
  | .call f args => do
    let r ← cx.program.routine? f
    Form.check? cx args
    return .ofResult r.result
  | .element base index => do
    let .vector t ← base.type? cx | none
    let _ ← index.type? cx
    return t
  | .member base x => do
    let .struct name ← base.type? cx | none
    let s ← cx.program.structure? name
    let m ← s.member? x
    return .ofTy m.type
  | .helper method base args => do
    let .vector t ← base.type? cx | none
    let m ← Method.ofName? method
    Form.check? cx args
    return (Declared.ofMethod m t).type
  | .cast type form => do
    let _ ← form.type? cx
    return type
  | .paren form => form.type? cx

/-- The static type of an expression, if it has one. -/
def Form.type? (cx : Scope) : Form → Option CppType
  | .primary p => p.type? cx
  | .not operand => do
    let t ← operand.type? cx
    if t.isArithmetic then some .bool else none
  | .binary o left right => do
    CppType.operation? o (← left.type? cx) (← right.type? cx)

/-- Whether all the expressions have static types. -/
def Form.check? (cx : Scope) : List Form → Option Unit
  | [] => some ()
  | f :: fs => do
    let _ ← f.type? cx
    Form.check? cx fs
end

variable {cx : Scope}

/-! ## Conversions -/

/-- The type of an operand after its conversion for an operation on the type `common`. -/
def convertedType (t : Ty) (common : Option Ty) : Ty :=
  match t, common with
  | .natural, some .integer => .integer
  | .natural, some .real => .real
  | t, _ => t

theorem type?_operand (f : Form) : f.operand.type? cx = f.type? cx := by
  cases f <;> rfl

theorem type?_converted {f : Form} {t : Ty} (h : f.type? cx = some (.ofTy t)) (common : Option Ty) :
    (f.converted (some t) common).type? cx = some (.ofTy (convertedType t common)) := by
  unfold Form.converted Form.conversion? convertedType
  split
  case h_1 target hc =>
    split at hc
    · cases hc; simp_all [Primary.type?, CppType.ofTy]
    · cases hc; simp_all [Primary.type?, CppType.ofTy]
    · cases hc
  case h_2 hc =>
    rw [type?_operand, h]
    split at hc
    · cases hc
    · cases hc
    · split <;> simp_all

/-- After the conversions, C++ gives an operation the type that the language gives it. -/
theorem operation?_converted {o : Operator} {a b t : Ty} (h : o.Gives a b t) :
    CppType.operation? o (.ofTy (convertedType a (o.operandType? a b)))
      (.ofTy (convertedType b (o.operandType? a b))) = some (.ofTy t) := by
  cases h with
  | arithmetic ho h =>
    obtain ⟨⟨ha, hb⟩, rfl⟩ := Ty.common_iff.1 h
    simp only [List.mem_cons, List.not_mem_nil, or_false] at ho
    rcases ho with rfl | rfl | rfl | rfl <;>
      cases a <;> cases ha <;> cases b <;> cases hb <;> rfl
  | remainder h ht =>
    obtain ⟨⟨ha, hb⟩, rfl⟩ := Ty.common_iff.1 h
    cases a <;> cases ha <;> cases b <;> cases hb <;> first | rfl | cases ht
  | concatenation ha hb h =>
    -- one of the operands is a string
    rcases h with rfl | rfl
    · cases b <;> cases hb <;> rfl
    · cases a <;> cases ha <;> rfl
  | ordering ho h =>
    simp only [List.mem_cons, List.not_mem_nil, or_false] at ho
    rcases h with ⟨ha, hb⟩ | ⟨rfl, ht⟩
    · rcases ho with rfl | rfl | rfl | rfl <;>
        cases a <;> cases ha <;> cases b <;> cases hb <;> rfl
    · rcases ho with rfl | rfl | rfl | rfl <;> cases a <;> cases ht <;> rfl
  | equality ho h =>
    simp only [List.mem_cons, List.not_mem_nil, or_false] at ho
    rcases h with ⟨ha, hb⟩ | ⟨rfl, ht⟩
    · rcases ho with rfl | rfl <;> cases a <;> cases ha <;> cases b <;> cases hb <;> rfl
    · rcases ho with rfl | rfl <;> cases a <;> cases ht <;> rfl
  | logic ho =>
    simp only [List.mem_cons, List.not_mem_nil, or_false] at ho
    rcases ho with rfl | rfl <;> rfl

/-! ## Expressions -/

theorem type?_literalForm (v : Literal) : (literalForm v).type? cx = some (.ofTy v.type) := by
  cases v with
  | integer value =>
    rw [literalForm]
    split
    · simp [Primary.type?, Form.type?, CppType.operation?, CppType.isArithmetic, CppType.usual,
        Literal.type, CppType.ofTy]
    · simp [Primary.type?, Literal.type, CppType.ofTy]
  | _ => simp [literalForm, Primary.type?, Literal.type, CppType.ofTy]

theorem toOption_ok {a : α} : (Except.ok a : Except ε α).toOption = some a := rfl

mutual
/-- The C++ text of an expression has the type of the expression. -/
theorem type?_form : ∀ {e : Expr} {t : Ty}, cx.typeOf e = .ok t →
    (form cx e).type? cx = some (.ofTy t)
  | .literal v, t, h => by
    rw [← Scope.typeOf_literal.1 h]
    exact type?_literalForm v
  | .path p, t, h => type?_pathForm (Scope.typeOf_path.1 h)
  | .not i e, t, h => by
    obtain ⟨he, rfl⟩ := Scope.typeOf_not.1 h
    rw [form, Form.type?, type?_operand, type?_form he]
    rfl
  | .binary i o l r, t, h => by
    obtain ⟨a, hl, b, hr, ho⟩ := Scope.typeOf_binary.1 h
    rw [form, hl, hr]
    simp only [toOption_ok, commonType?, Option.bind_eq_bind, Option.bind_some, Form.type?,
      type?_converted (type?_form hl), type?_converted (type?_form hr)]
    exact operation?_converted ho

theorem type?_pathForm : ∀ {p : Path} {t? : Option Ty}, cx.typeOfPath p = .ok t? →
    (pathForm cx p).type? cx = some (.ofResult t?)
  | .var x, t?, h => by
    obtain ⟨b, hb, rfl⟩ := Scope.typeOfPath_var.1 h
    simp [pathForm, Primary.type?, hb, CppType.ofResult]
  | .call f args, t?, h => by
    obtain ⟨r, hr, hlength, hargs, rfl⟩ := Scope.typeOfPath_call.1 h
    simp [pathForm, Primary.type?, hr, check?_forms hlength hargs]
  | .index base i, t?, h => by
    obtain ⟨e, hbase, ⟨k, hi, -⟩, rfl⟩ := Scope.typeOfPath_index.1 h
    simp [pathForm, Primary.type?, type?_pathForm hbase, type?_form hi, CppType.ofResult,
      CppType.ofTy]
  | .member base x, t?, h => by
    obtain ⟨name, hbase, s, hs, m, hm, rfl⟩ := Scope.typeOfPath_member.1 h
    simp [pathForm, Primary.type?, type?_pathForm hbase, hs, hm, CppType.ofResult, CppType.ofTy]
  | .method base x args, t?, h => by
    obtain ⟨e, hbase, m, hm, hlength, hargs, -, rfl⟩ := Scope.typeOfPath_method.1 h
    simp [pathForm, Primary.type?, type?_pathForm hbase, hm, check?_methodForms hlength hargs,
      CppType.ofResult, CppType.ofTy]

theorem check?_forms {f : Ident} : ∀ {ps : List Parameter} {es : List Expr},
    ps.length = es.length → cx.checkArguments f ps es = .ok () →
      Form.check? cx (forms cx es) = some ()
  | [], [], _, _ => rfl
  | p :: ps, e :: es, hlength, h => by
    have hlength : ps.length = es.length := Nat.succ.inj hlength
    obtain ⟨t, he, hes⟩ : ∃ t, cx.typeOf e = .ok t ∧ cx.checkArguments f ps es = .ok () := by
      by_cases hp : p.mode = .input
      · obtain ⟨t, he, -, hes⟩ := (Scope.checkArguments_value hp).1 h
        exact ⟨t, he, hes⟩
      · obtain ⟨-, he, hes⟩ := (Scope.checkArguments_storage hp).1 h
        exact ⟨_, he, hes⟩
    simp [forms, Form.check?, type?_form he, check?_forms hlength hes]

theorem check?_methodForms {m : Ident} {element : Ty} :
    ∀ {ps : List Method.Param} {es : List Expr}, ps.length = es.length →
      cx.checkMethodArguments m element ps es = .ok () → Form.check? cx (forms cx es) = some ()
  | [], [], _, _ => rfl
  | .index :: ps, e :: es, hlength, h => by
    obtain ⟨t, he, -, hes⟩ := Scope.checkMethodArguments_index.1 h
    simp [forms, Form.check?, type?_form he, check?_methodForms (Nat.succ.inj hlength) hes]
  | .element :: ps, e :: es, hlength, h => by
    obtain ⟨t, he, -, hes⟩ := Scope.checkMethodArguments_element.1 h
    simp [forms, Form.check?, type?_form he, check?_methodForms (Nat.succ.inj hlength) hes]
end

/-! ## The test of a loop -/

/-- A comparison with an integer has no operand that is left natural. -/
theorem convertedType_ne_natural {l r : Ty} (h : l = .integer ∨ r = .integer) :
    convertedType l (Operator.lessOrEqual.operandType? l r) ≠ .natural ∧
      convertedType r (Operator.lessOrEqual.operandType? l r) ≠ .natural := by
  rcases h with rfl | rfl
  · cases r <;> exact ⟨nofun, nofun⟩
  · cases l <;> exact ⟨nofun, nofun⟩

theorem ofTy_ne_unsignedLongLong {t : Ty} (h : t ≠ .natural) :
    CppType.ofTy t ≠ .unsignedLongLong := by
  cases t with
  | natural => exact absurd rfl h
  | _ => exact nofun

section
variable {x : Ident} {last : Expr} {b : Binding} {r : Ty}

theorem testType?_eq (hx : cx.lookup? x.name = some b) (hlast : cx.typeOf last = .ok r) :
    testType? cx x last = Operator.lessOrEqual.operandType? b.type r := by
  rw [testType?, hx, hlast]
  rfl

theorem type?_counterForm (hx : cx.lookup? x.name = some b) (hlast : cx.typeOf last = .ok r) :
    (counterForm cx x last).type? cx =
      some (.ofTy (convertedType b.type (Operator.lessOrEqual.operandType? b.type r))) := by
  have hvar : (Form.primary (.var x.name)).type? cx = some (.ofTy b.type) := by
    simp [Form.type?, Primary.type?, hx]
  rw [counterForm, testType?_eq hx hlast, hx]
  exact type?_converted hvar _

theorem type?_boundForm (hx : cx.lookup? x.name = some b) (hlast : cx.typeOf last = .ok r) :
    (boundForm cx x last).type? cx =
      some (.ofTy (convertedType r (Operator.lessOrEqual.operandType? b.type r))) := by
  rw [boundForm, testType?_eq hx hlast, hlast]
  exact type?_converted (type?_form hlast) _

end

/-- The text computes in the types of the language: the static type of the text of an expression is the
C++ type for the type of the expression. So it is with both sides of the test of a loop, after the
conversions for a comparison, and none of them is unsigned if one of them is an integer. -/
theorem staticType_expr (cx : Scope) :
    (∀ e t, cx.typeOf e = .ok t → (form cx e).text = expr cx e ∧
      (form cx e).type? cx = some (.ofTy t) ∧ (CppType.ofTy t).text = type t) ∧
    ∀ i x first last body,
      instruction cx (.forLoop i x first last body) =
        Step.line ("for (" ++ name x.name ++ " = " ++ expr cx first ++ "; " ++
          (counterForm cx x last).text ++ " <= " ++ (boundForm cx x last).text ++ "; ++" ++
            name x.name ++ ") \x7b") ++ [.indented (block cx body)] ++ Step.line "\x7d" ∧
      ∀ b r, cx.lookup? x.name = some b → cx.typeOf last = .ok r →
        (counterForm cx x last).type? cx =
          some (.ofTy (convertedType b.type (Operator.lessOrEqual.operandType? b.type r))) ∧
        (boundForm cx x last).type? cx =
          some (.ofTy (convertedType r (Operator.lessOrEqual.operandType? b.type r))) ∧
        (b.type = .integer ∨ r = .integer →
          (counterForm cx x last).type? cx ≠ some .unsignedLongLong ∧
            (boundForm cx x last).type? cx ≠ some .unsignedLongLong) := by
  refine ⟨fun e t h => ⟨text_form e, type?_form h, CppType.text_ofTy t⟩, ?_⟩
  intro i x first last body
  refine ⟨by rw [instruction_forLoop_eq, text_form], fun b r hx hlast => ?_⟩
  have hcounter := type?_counterForm hx hlast
  have hbound := type?_boundForm hx hlast
  refine ⟨hcounter, hbound, fun h => ?_⟩
  obtain ⟨hl, hr⟩ := convertedType_ne_natural h
  rw [hcounter, hbound, ne_eq, Option.some_inj, ne_eq, Option.some_inj]
  exact ⟨ofTy_ne_unsignedLongLong hl, ofTy_ne_unsignedLongLong hr⟩

/-- The scope of a routine with an integer and a vector among its locals. -/
def vectorScope : Scope :=
  let ident (name : String) : Ident := ⟨default, name⟩
  let locals : List Symbol := [⟨ident "i", .integer⟩, ⟨ident "v", .vector .real⟩]
  ⟨.empty (ident "p"), some ⟨ident "f", [], locals, [], none⟩⟩

/-- The size of the vector, a natural number. -/
def vectorSize : Expr := .path (.method (.var ⟨default, "v"⟩) ⟨default, "size"⟩ [])

/-- One less than the size of a vector is signed, and so is the size where it bounds an integer. -/
theorem staticType_expr_size :
    let lessOne : Expr := .binary default .subtract vectorSize (.literal (.integer 1))
    expr vectorScope lessOne = "static_cast<long long>(algo_size(v)) - 1LL" ∧
    (form vectorScope lessOne).type? vectorScope = some .longLong ∧
    (boundForm vectorScope ⟨default, "i"⟩ vectorSize).type? vectorScope = some .longLong := by
  obtain ⟨hexpr, hloop⟩ := staticType_expr vectorScope
  refine ⟨by decide +kernel, (hexpr _ .integer (by rfl)).2.1, ?_⟩
  exact ((hloop default ⟨default, "i"⟩ vectorSize vectorSize []).2 (.ofLocal ⟨⟨default, "i"⟩, .integer⟩)
    .natural (by rfl) (by rfl)).2.1

end Primer.Target
