import Primer.Proofs.Target.Brackets
import Primer.Target.Program

/-!
Operands in the C++ text. What stands as an operand is a single value, stands in parentheses or is
converted by a cast, and in none of these does an operator stand outside of parentheses and strings: each
blank out there stands before a name (`Compact`). So no grouping hangs on the precedence of the operators
of C++.
-/

namespace Primer

/-! ## Expressions with valid leaves -/

/-- A word of the characters of names, which may be a keyword. -/
structure LexicalName (name : String) : Prop where
  start : ∃ c ∈ name.toList.head?, isNameStart c = true
  chars : ∀ c ∈ name.toList, isNameChar c = true

/-- What the quotes of a string can hold. Numbers are all valid. -/
def Literal.Lexical : Literal → Prop
  | .string text => LegalText text.toList
  | .real _ | .integer _ | .natural _ | .boolean _ => True

mutual
/-- The names and literals of the expression are valid, each for itself. -/
def Expr.Lexical : Expr → Prop
  | .literal value => value.Lexical
  | .path p => p.Lexical
  | .not _ e => e.Lexical
  | .binary _ _ left right => left.Lexical ∧ right.Lexical

def Path.Lexical : Path → Prop
  | .var x => LexicalName x.name
  | .call f args => LexicalName f.name ∧ Expr.LexicalAll args
  | .index base i => base.Lexical ∧ i.Lexical
  | .member base x => base.Lexical ∧ LexicalName x.name
  | .method base m args => base.Lexical ∧ LexicalName m.name ∧ Expr.LexicalAll args

def Expr.LexicalAll : List Expr → Prop
  | [] => True
  | e :: es => e.Lexical ∧ Expr.LexicalAll es
end

theorem LegalName.lexical {name : String} (h : LegalName name) : LexicalName name :=
  ⟨h.start, h.chars⟩

theorem Literal.Legal.lexical {v : Literal} (h : v.Legal) : v.Lexical := by
  cases v with
  | string text => exact h
  | _ => trivial

mutual
theorem Expr.lexical_of_legal : ∀ e : Expr, e.Legal → e.Lexical
  | .literal _, h => Literal.Legal.lexical h
  | .path p, h => Path.lexical_of_legal p h
  | .not _ e, h => Expr.lexical_of_legal e h
  | .binary _ _ left right, h => ⟨Expr.lexical_of_legal left h.1, Expr.lexical_of_legal right h.2⟩

theorem Path.lexical_of_legal : ∀ p : Path, p.Legal → p.Lexical
  | .var _, h => LegalName.lexical h
  | .call _ args, h => ⟨h.1.lexical, Expr.lexicalAll_of_legalAll args h.2⟩
  | .index base i, h => ⟨Path.lexical_of_legal base h.1, Expr.lexical_of_legal i h.2⟩
  | .member base _, h => ⟨Path.lexical_of_legal base h.1, h.2.lexical⟩
  | .method base _ args, h =>
    ⟨Path.lexical_of_legal base h.1, h.2.1.lexical, Expr.lexicalAll_of_legalAll args h.2.2⟩

theorem Expr.lexicalAll_of_legalAll : ∀ es : List Expr, Expr.LegalAll es → Expr.LexicalAll es
  | [], _ => trivial
  | e :: es, h => ⟨Expr.lexical_of_legal e h.1, Expr.lexicalAll_of_legalAll es h.2⟩
end

namespace Target

/-! ## Operators at the surface -/

/-- The signs that C++ has between two operands. -/
def binarySigns : List String :=
  ["*", "/", "%", "+", "-", "<<", ">>", "<", "<=", ">", ">=", "<=>", "==", "!=", "&", "^", "|",
    "&&", "||", "?", ":", "=", "*=", "/=", "%=", "+=", "-=", "<<=", ">>=", "&=", "^=", "|=", ".*",
    "->*", ","]

theorem operator_mem_binarySigns (o : Operator) : operator o ∈ binarySigns := by
  cases o <;> decide

/-- A binary operator between blanks stands outside of all strings and parentheses. -/
def HasOperator (cs : List Char) : Prop :=
  ∃ before sign after, sign ∈ binarySigns ∧ cs = before ++ ' ' :: (sign.toList ++ ' ' :: after) ∧
    Balanced before

/-- A balanced text without an operator at its surface. -/
structure Delimited (cs : List Char) : Prop extends Balanced cs where
  noOperator : ¬HasOperator cs

/-- Each blank at the surface stands before a name. -/
def Compact (cs : List Char) : Prop :=
  ∀ before after, cs = before ++ ' ' :: after → Balanced before →
    ∃ c ∈ after.head?, isNameChar c = true

theorem Compact.not_hasOperator {cs : List Char} (h : Compact cs) : ¬HasOperator cs := by
  rintro ⟨before, sign, after, hsign, hcs, hbefore⟩
  have hheads : ∀ sign ∈ binarySigns, sign.toList.head?.any (!isNameChar ·) = true := by decide
  obtain ⟨c, hc, hplain⟩ := (Option.any_eq_true _ _).1 (hheads sign hsign)
  obtain ⟨d, hd, hname⟩ := h before _ hcs hbefore
  rw [List.head?_append, hc, Option.some_or] at hd
  rw [Option.mem_some.1 hd, hname] at hplain
  cases hplain

/-- An inert character other than a blank. -/
def isTight (c : Char) : Bool := isInert c && c != ' '

theorem isTight_of_isNameChar {c : Char} (h : isNameChar c = true) : isTight c = true := by
  rw [isTight, isInert_of_isNameChar h, Bool.true_and, bne_iff_ne]
  rintro rfl
  cases h

theorem isTight_of_isDigit {c : Char} (h : c.isDigit = true) : isTight c = true :=
  isTight_of_isNameChar (by simp [isNameChar, Char.isAlphanum, h])

/-- A neat text that can be an operand as it is. -/
structure Sealed (cs : List Char) : Prop extends Neat cs where
  compact : Compact cs

namespace Sealed

variable {cs ds : List Char}

theorem delimited (h : Sealed cs) : Delimited cs := ⟨h.toBalanced, h.compact.not_hasOperator⟩

theorem of_no_blank (h : Neat cs) (hblank : ' ' ∉ cs) : Sealed cs := by
  refine ⟨h, fun before after hcs _ => absurd ?_ hblank⟩
  rw [hcs]
  exact List.mem_append_right before List.mem_cons_self

/-- A blank before a word. -/
theorem blank {c : Char} (h : Neat (' ' :: c :: cs)) (hc : isNameChar c = true)
    (hblank : ' ' ∉ c :: cs) : Sealed (' ' :: c :: cs) := by
  refine ⟨h, fun before after hcs _ => ?_⟩
  cases before with
  | nil =>
    obtain rfl := List.tail_eq_of_cons_eq hcs
    exact ⟨c, rfl, hc⟩
  | cons d before =>
    refine absurd ?_ hblank
    rw [List.tail_eq_of_cons_eq hcs]
    exact List.mem_append_right before List.mem_cons_self

theorem append (h : Sealed cs) (h' : Sealed ds) : Sealed (cs ++ ds) := by
  refine ⟨h.toNeat.append h'.toNeat, fun before after hsplit hbefore => ?_⟩
  rcases List.append_eq_append_iff.1 hsplit with ⟨more, rfl, hds⟩ | ⟨more, hcs, hmore⟩
  · exact h'.compact more after hds (h.append_iff.1 hbefore)
  · cases more with
    | nil =>
      rw [List.append_nil] at hcs
      exact h'.compact [] after hmore.symm ⟨rfl, rfl⟩
    | cons d more =>
      rw [List.cons_append, List.cons.injEq] at hmore
      obtain ⟨rfl, rfl⟩ := hmore
      obtain ⟨c, hc, hname⟩ := h.compact before more hcs hbefore
      refine ⟨c, ?_, hname⟩
      rw [List.head?_append, Option.mem_def.1 hc]
      rfl

/-- Nothing in parentheses is at the surface. -/
theorem parens (h : Neat cs) : Sealed ('(' :: (cs ++ [')'])) := by
  refine ⟨h.parens, fun before after hsplit hbefore => ?_⟩
  cases before with
  | nil =>
    rw [List.nil_append, List.cons.injEq] at hsplit
    exact absurd hsplit.1 (by decide)
  | cons d before =>
    rw [List.cons_append, List.cons.injEq] at hsplit
    obtain ⟨rfl, hsplit⟩ := hsplit
    rcases List.append_eq_append_iff.1 hsplit with ⟨more, -, hmore⟩ | ⟨more, rfl, -⟩
    · have hblank : ' ' ∈ [')'] := hmore ▸ List.mem_append_right more List.mem_cons_self
      exact absurd hblank (by decide)
    · -- the parentheses of what is within are closed at most as often as they are opened
      have hnested := h.nested
      rw [unquoted_append, nest?_append, Option.bind_eq_some_iff] at hnested
      obtain ⟨k, hk, -⟩ := hnested
      have hopen : nest? '(' ')' 0 (unquoted .code ('(' :: before)) = some (k + 1) :=
        nest?_add hk 1
      rw [hbefore.nested] at hopen
      cases hopen

theorem string (h : LegalText cs) : Sealed ('"' :: (cs ++ ['"', 's'])) := by
  refine ⟨.string h, fun before after hsplit hbefore => ?_⟩
  cases before with
  | nil =>
    rw [List.nil_append, List.cons.injEq] at hsplit
    exact absurd hsplit.1 (by decide)
  | cons d before =>
    rw [List.cons_append, List.cons.injEq] at hsplit
    obtain ⟨rfl, hsplit⟩ := hsplit
    rcases List.append_eq_append_iff.1 hsplit with ⟨more, -, hmore⟩ | ⟨more, hcs, -⟩
    · have hblank : ' ' ∈ ['"', 's'] := hmore ▸ List.mem_append_right more List.mem_cons_self
      exact absurd hblank (by decide)
    · exact absurd hbefore.closed (Zone.after_ne_code h hcs)

/-- A text of characters that do not matter here. -/
theorem of_tight (h : cs.all isTight = true) : Sealed cs := by
  simp only [isTight, List.all_eq_true, Bool.and_eq_true, bne_iff_ne] at h
  exact .of_no_blank (.of_inert (List.all_eq_true.2 fun c hc => (h c hc).1))
    fun hblank => (h ' ' hblank).2 rfl

theorem of_name {s : String} (h : ∀ c ∈ s.toList, isNameChar c = true) : Sealed s.toList :=
  .of_tight (List.all_eq_true.2 fun c hc => isTight_of_isNameChar (h c hc))

/-- Digits with a sign and a suffix. -/
theorem of_int (z : Int) {suffix : String} (h : suffix.toList.all isTight = true) :
    Sealed (toString z ++ suffix).toList := by
  refine .of_tight (List.all_eq_true.2 fun c hc => ?_)
  rw [String.toList_append, toList_toString_int, List.mem_append, List.mem_append] at hc
  rcases hc with (hc | hc) | hc
  · split at hc
    · rw [List.mem_singleton.1 hc]
      decide
    · cases hc
  · exact isTight_of_isDigit (isDigit_of_mem_toDigits hc)
  · exact List.all_eq_true.1 h c hc

theorem of_real (x : Binary64) : Sealed x.literalText.toList := by
  refine .of_tight ?_
  cases hfin : x.isFinite with
  | false =>
    rw [Binary64.literalText_of_infinite hfin]
    cases x.negative <;> decide
  | true =>
    obtain ⟨whole, fraction, htext, -, hwhole, -, hfraction, -⟩ := Binary64.literalText_eq hfin
    refine List.all_eq_true.2 fun c hc => ?_
    rw [htext, List.mem_append, List.mem_append, List.mem_cons] at hc
    rcases hc with hsign | hc | rfl | hc
    · split at hsign
      · rw [List.mem_singleton.1 hsign]
        decide
      · cases hsign
    · exact isTight_of_isDigit (hwhole c hc)
    · decide
    · exact isTight_of_isDigit (hfraction c hc)

end Sealed

/-! ## The texts of expressions -/

theorem sealed_literal {v : Literal} (h : v.Lexical) : Sealed (literal v).toList := by
  cases v with
  | string text =>
    have htext : (literal (.string text)).toList = '"' :: (text.toList ++ ['"', 's']) := by
      simp [literal]
    rw [htext]
    exact .string h
  | real x => exact .of_real x
  | integer z =>
    rw [literal]
    split
    · have htext : ("(" ++ toString (z + 1) ++ "LL - 1)").toList =
          '(' :: ((toString (z + 1) ++ "LL").toList ++ " - 1".toList ++ [')']) := by
        simp only [String.toList_append, List.append_assoc]
        rfl
      rw [htext]
      exact .parens ((Sealed.of_int (z + 1) (by decide)).toNeat.append (.of_inert (by decide)))
    · exact .of_int z (by decide)
  | natural n => exact .of_int n (by decide)
  | boolean b => cases b <;> exact .of_tight (by decide)

theorem sealed_name {s : String} (h : LexicalName s) : Sealed (name s).toList := by
  rw [name]
  split
  · rw [String.toList_append]
    exact (Sealed.of_name h.chars).append (.of_tight (by decide))
  · exact .of_name h.chars

theorem toList_call (f text : String) :
    (f ++ "(" ++ text ++ ")").toList = f.toList ++ '(' :: (text.toList ++ [')']) := by simp

theorem neat_call {f text : String} (hf : Neat f.toList) (h : Neat text.toList) :
    Neat (f ++ "(" ++ text ++ ")").toList := by
  rw [toList_call]
  exact hf.append h.parens

theorem sealed_call {f text : String} (hf : Sealed f.toList) (h : Neat text.toList) :
    Sealed (f ++ "(" ++ text ++ ")").toList := by
  rw [toList_call]
  exact hf.append (.parens h)

section
variable {e : Expr} {text : String}

theorem sealed_parenthesize (h : Neat text.toList) (hleaf : e.isLeaf = true → Sealed text.toList) :
    Sealed (e.parenthesize text).toList := by
  rw [Expr.parenthesize]
  split
  case isTrue he => exact hleaf he
  case isFalse => exact sealed_call (f := "") (.of_tight (by decide)) h

theorem eq_type_of_conversion? {type? common : Option Ty} {target : String}
    (h : conversion? type? common = some target) : ∃ t ∈ [Ty.integer, .real], target = type t := by
  unfold conversion? at h
  split at h <;> cases h
  · exact ⟨.integer, by decide, rfl⟩
  · exact ⟨.real, by decide, rfl⟩

theorem sealed_cast {t : Ty} (ht : t ∈ [Ty.integer, .real]) (h : Neat text.toList) :
    Sealed (cast (type t) text).toList := by
  have hstem : Sealed ("static_cast<" ++ type t ++ ">").toList := by
    simp only [List.mem_cons, List.not_mem_nil, or_false] at ht
    rcases ht with rfl | rfl
    · have hword : Sealed " long>".toList := .blank (.of_inert (by decide)) (by decide) (by decide)
      have hopen : Sealed "static_cast<long".toList := .of_tight (by decide)
      exact hopen.append hword
    · exact .of_tight (by decide)
  have htext : (cast (type t) text).toList =
      ("static_cast<" ++ type t ++ ">").toList ++ '(' :: (text.toList ++ [')']) := by
    unfold cast
    simp only [String.toList_append, List.append_assoc]
    rfl
  rw [htext]
  exact hstem.append (.parens h)

theorem sealed_converted (type? common : Option Ty) (h : Neat text.toList)
    (hleaf : e.isLeaf = true → Sealed text.toList) :
    Sealed (converted e text type? common).toList := by
  rw [converted]
  split
  case h_1 target htarget =>
    obtain ⟨t, ht, rfl⟩ := eq_type_of_conversion? htarget
    exact sealed_cast ht h
  case h_2 => exact sealed_parenthesize h hleaf

end

variable {cx : Scope}

/-- Both operands are converted to one type. -/
theorem expr_binary_converted (i : Position) (o : Operator) (left right : Expr) :
    ∃ leftType? rightType? common, expr cx (.binary i o left right) =
      converted left (expr cx left) leftType? common ++ " " ++ operator o ++ " " ++
        converted right (expr cx right) rightType? common :=
  ⟨_, _, _, by rw [expr]⟩

mutual
/-- The text of an expression is neat, and that of a single value can be an operand as it is. -/
theorem neat_expr : ∀ e : Expr, e.Lexical →
    Neat (expr cx e).toList ∧ (e.isLeaf = true → Sealed (expr cx e).toList)
  | .literal v, h => by
    rw [expr]
    exact ⟨(sealed_literal h).toNeat, fun _ => sealed_literal h⟩
  | .path p, h => by
    rw [expr]
    exact ⟨(sealed_path p h).toNeat, fun _ => sealed_path p h⟩
  | .not i e, h => by
    obtain ⟨hneat, hleaf⟩ := neat_expr e h
    have hsign : Neat "!".toList := .of_inert (by decide)
    rw [expr, String.toList_append]
    exact ⟨hsign.append (sealed_parenthesize hneat hleaf).toNeat, fun hnot => by cases hnot⟩
  | .binary i o left right, h => by
    obtain ⟨hl, hlleaf⟩ := neat_expr left h.1
    obtain ⟨hr, hrleaf⟩ := neat_expr right h.2
    have hblank : Neat " ".toList := .of_inert (by decide)
    have hsign : Neat (operator o).toList := by cases o <;> exact .of_inert (by decide)
    obtain ⟨leftType?, rightType?, common, htext⟩ := expr_binary_converted i o left right
    rw [htext]
    simp only [String.toList_append]
    refine ⟨?_, fun hbinary => by cases hbinary⟩
    have hsigned := (hblank.append hsign).append hblank
    have hleft := (sealed_converted leftType? common hl hlleaf).toNeat
    have hright := (sealed_converted rightType? common hr hrleaf).toNeat
    simpa only [List.append_assoc] using (hleft.append hsigned).append hright

theorem sealed_path : ∀ p : Path, p.Lexical → Sealed (path cx p).toList
  | .var x, h => by
    rw [path]
    exact sealed_name h
  | .call f args, h => by
    rw [path]
    exact sealed_call (sealed_name h.1) (.intercalate (neat_exprs args h.2))
  | .index base i, h => by
    have hbase : Sealed (path cx base ++ ".at").toList := by
      rw [String.toList_append]
      exact (sealed_path base h.1).append (.of_tight (by decide))
    have htext : path cx (.index base i) = (path cx base ++ ".at") ++ "(" ++ expr cx i ++ ")" := by
      rw [path, @String.append_assoc (path cx base) ".at" "("]
      rfl
    rw [htext]
    exact sealed_call hbase (neat_expr i h.2).1
  | .member base x, h => by
    rw [path, String.toList_append, String.toList_append]
    exact ((sealed_path base h.1).append (.of_tight (by decide))).append (sealed_name h.2)
  | .method base m args, h => by
    have hstem : Sealed (helperStem ++ m.name).toList := by
      rw [String.toList_append]
      exact (Sealed.of_tight (by decide)).append (.of_name h.2.1.chars)
    rw [path]
    refine sealed_call hstem (.intercalate ?_)
    intro t ht
    rcases List.mem_cons.1 ht with rfl | ht
    · exact (sealed_path base h.1).toNeat
    · exact neat_exprs args h.2.2 t ht

theorem neat_exprs : ∀ es : List Expr, Expr.LexicalAll es → ∀ t ∈ exprs cx es, Neat t.toList
  | [], _ => by simp [exprs]
  | e :: es, h => by
    rw [exprs, List.forall_mem_cons]
    exact ⟨(neat_expr e h.1).1, neat_exprs es h.2⟩
end

theorem sealed_converted_expr {e : Expr} (h : e.Lexical) (type? common : Option Ty) :
    Sealed (converted e (expr cx e) type? common).toList :=
  sealed_converted type? common (neat_expr e h).1 (neat_expr e h).2

theorem sealed_operand {e : Expr} (h : e.Lexical) : Sealed (operand cx e).toList :=
  sealed_parenthesize (neat_expr e h).1 (neat_expr e h).2

/-! ## Operands -/

/-- The ways in which an operand can stand in the text. -/
inductive Stands (cx : Scope) (e : Expr) : String → Prop where
  | bare : e.isLeaf = true → Stands cx e (expr cx e)
  | grouped : Stands cx e ("(" ++ expr cx e ++ ")")
  | converted : t ∈ [Ty.integer, .real] → Stands cx e (cast (type t) (expr cx e))

/-- A text that an operand stands in and that holds together. -/
structure OperandText (cx : Scope) (e : Expr) (text : String) : Prop where
  stands : Stands cx e text
  delimited : Delimited text.toList

theorem operandText_operand {e : Expr} (h : e.Lexical) : OperandText cx e (operand cx e) := by
  refine ⟨?_, (sealed_operand h).delimited⟩
  rw [operand, Expr.parenthesize]
  split
  case isTrue he => exact .bare he
  case isFalse => exact .grouped

theorem operandText_converted {e : Expr} (h : e.Lexical) (type? common : Option Ty) :
    OperandText cx e (converted e (expr cx e) type? common) := by
  refine ⟨?_, (sealed_converted_expr h type? common).delimited⟩
  rw [converted]
  split
  case h_1 target htarget =>
    obtain ⟨t, ht, rfl⟩ := eq_type_of_conversion? htarget
    exact .converted ht
  case h_2 => exact (operandText_operand h).stands

/-- The test of a loop converts its counter as it does an operand. -/
theorem instruction_forLoop_converted (i : Position) (x : Ident) (first last : Expr)
    (body : List Instruction) : ∃ type? lastType? common, instruction cx (.forLoop i x first last body) =
      Step.line ("for (" ++ name x.name ++ " = " ++ expr cx first ++ "; " ++
        converted (.path (.var x)) (expr cx (.path (.var x))) type? common ++ " <= " ++
          converted last (expr cx last) lastType? common ++ "; ++" ++ name x.name ++ ") \x7b") ++
        [.indented (block cx body)] ++ Step.line "\x7d" := by
  have htest (type? common : Option Ty) :
      ((conversion? type? common).map (cast · (name x.name))).getD (name x.name) =
        converted (.path (.var x)) (expr cx (.path (.var x))) type? common := by
    rw [converted, expr, path]
    cases conversion? type? common <;> rfl
  refine ⟨(cx.lookup? x.name).map (·.type), (cx.typeOf last).toOption,
    commonType? .lessOrEqual ((cx.lookup? x.name).map (·.type)) (cx.typeOf last).toOption, ?_⟩
  rw [instruction, ← htest]

/-- The parentheses of the text of an expression are balanced. The operands of operators, of negations
and of instructions to print, and both sides of the test of a loop, have no operator at their
surface. -/
theorem operands_delimited (cx : Scope) :
    (∀ e, e.Lexical → Balanced (expr cx e).toList) ∧
    (∀ i o left right, left.Lexical → right.Lexical →
      ∃ l r, expr cx (.binary i o left right) = l ++ " " ++ operator o ++ " " ++ r ∧
        operator o ∈ binarySigns ∧ OperandText cx left l ∧ OperandText cx right r) ∧
    (∀ i e, e.Lexical → ∃ t, expr cx (.not i e) = "!" ++ t ∧ OperandText cx e t) ∧
    (∀ i body e, e.Lexical →
      ∃ t, instruction cx (.untilLoop i body e) = Step.line "do \x7b" ++ [.indented (block cx body)] ++
          Step.line ("\x7d while (!" ++ t ++ ");") ∧ OperandText cx e t) ∧
    (∀ i es, (∀ e ∈ es, e.Lexical) →
      ∃ ts, instruction cx (.print i es) =
          .write "std::cout" :: ts.map (fun t => .write (" << " ++ t)) ++ Step.line ";" ∧
        List.Forall₂ (OperandText cx) es ts) ∧
    (∀ i x first last body, LexicalName x.name → last.Lexical →
      ∃ l r, instruction cx (.forLoop i x first last body) =
          Step.line ("for (" ++ name x.name ++ " = " ++ expr cx first ++ "; " ++ l ++ " <= " ++ r ++
            "; ++" ++ name x.name ++ ") \x7b") ++ [.indented (block cx body)] ++ Step.line "\x7d" ∧
        OperandText cx (.path (.var x)) l ∧ OperandText cx last r) := by
  refine ⟨fun e he => (neat_expr e he).1.toBalanced, ?_, ?_, ?_, ?_, ?_⟩
  · intro i o left right hleft hright
    obtain ⟨leftType?, rightType?, common, htext⟩ := expr_binary_converted i o left right
    exact ⟨_, _, htext, operator_mem_binarySigns o, operandText_converted hleft _ _,
      operandText_converted hright _ _⟩
  · intro i e he
    exact ⟨operand cx e, by rw [expr, operand], operandText_operand he⟩
  · intro i body e he
    refine ⟨"(" ++ expr cx e ++ ")", ?_, .grouped, ?_⟩
    · rw [instruction]
      simp only [String.append_assoc]
      rfl
    · exact (sealed_call (f := "") (.of_tight (by decide)) (neat_expr e he).1).delimited
  · intro i es hes
    refine ⟨es.map (operand cx), ?_, ?_⟩
    · rw [instruction, List.map_map]
      rfl
    · rw [List.forall₂_map_right_iff, List.forall₂_same]
      exact fun e he => operandText_operand (hes e he)
  · intro i x first last body hx hlast
    obtain ⟨type?, lastType?, common, htext⟩ := instruction_forLoop_converted i x first last body
    have hcounter : (Expr.path (.var x)).Lexical := hx
    exact ⟨_, _, htext, operandText_converted hcounter _ _, operandText_converted hlast _ _⟩

/-- A string of brackets and an operator, and a number that is written as a difference. -/
theorem operands_delimited_quoted :
    let cx : Scope := ⟨.empty ⟨default, "t"⟩, none⟩
    let sum : Expr := .binary default .add (.literal (.string ") + (")) (.literal (.integer leastInteger))
    let product : Expr := .binary default .multiply sum (.literal (.real ⟨true, 0⟩))
    expr cx product = "(\") + (\"s + (-9223372036854775807LL - 1)) * -0.0" ∧
    Balanced (expr cx product).toList ∧
    ∃ l r, expr cx product = l ++ " " ++ operator .multiply ++ " " ++ r ∧
      OperandText cx sum l ∧ OperandText cx (.literal (.real ⟨true, 0⟩)) r := by
  intro cx sum product
  have hsum : sum.Lexical := by
    refine ⟨?_, trivial⟩
    exact .plain (by decide) (.plain (by decide) (.plain (by decide) (.plain (by decide)
      (.plain (by decide) .nil))))
  obtain ⟨hbalanced, hbinary, -⟩ := operands_delimited cx
  obtain ⟨l, r, htext, -, hl, hr⟩ :=
    hbinary default .multiply sum (.literal (.real ⟨true, 0⟩)) hsum trivial
  exact ⟨by decide +kernel, hbalanced product ⟨hsum, trivial⟩, l, r, htext, hl, hr⟩

end Target

end Primer
