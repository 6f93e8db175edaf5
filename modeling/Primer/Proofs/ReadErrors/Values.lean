import Primer.Proofs.ReadErrors.Parts
import Primer.Proofs.RoundTrip.Program

/-!
Texts that are a single value. A word is always taken as a whole, so that a name which begins with a
keyword is a name (`Expr.parse_words`). A whole number is read by its value, however many digits it is
written with (`Expr.parse_number`), or does not fit.
-/

namespace Primer

open Primer.Parser Primer.Grammar

/-! ## The form of names -/

/-- A letter of the English alphabet or an underscore. -/
def isLetter (c : Char) : Bool := ('a' ≤ c && c ≤ 'z') || ('A' ≤ c && c ≤ 'Z') || c == '_'

/-- A letter that letters and digits follow. -/
def hasNameForm (x : String) : Bool :=
  match x.toList with
  | [] => false
  | c :: tail => isLetter c && tail.all fun d => isLetter d || ('0' ≤ d && d ≤ '9')

theorem isLetter_eq (c : Char) : isLetter c = isNameStart c := by
  have halpha : c.isAlpha = (c.isUpper || c.isLower) := rfl
  have hupper : c.isUpper = (decide ('A' ≤ c) && decide (c ≤ 'Z')) := Bool.decide_and ..
  have hlower : c.isLower = (decide ('a' ≤ c) && decide (c ≤ 'z')) := rfl
  rw [isLetter, isNameStart, halpha, hupper, hlower, Bool.or_comm (_ && _) (_ && _)]

theorem isNameChar_eq (c : Char) : isNameChar c = (isLetter c || ('0' ≤ c && c ≤ '9')) := by
  have hdigit : c.isDigit = (decide ('0' ≤ c) && decide (c ≤ '9')) := rfl
  rw [isLetter_eq, ← hdigit, isNameChar, isNameStart, Char.isAlphanum, Bool.or_right_comm]

theorem hasNameForm_iff {x : String} : hasNameForm x = true ↔ ∃ c tail, x.toList = c :: tail ∧
    isNameStart c = true ∧ ∀ d ∈ tail, isNameChar d = true := by
  rw [hasNameForm]
  cases x.toList with
  | nil => simp
  | cons c tail => simp [isLetter_eq, isNameChar_eq]

/-- The reference to a name that stands before so many more bytes. -/
def Expr.reference (x : String) (n : Nat) : Expr := .path (.var ⟨⟨x.utf8ByteSize + n⟩, x⟩)

section
variable {x : String} (hform : hasNameForm x = true)
include hform

theorem legalName_of_hasNameForm (hkey : x ∉ keywords) (hlength : x.length ≤ maxNameLength) :
    LegalName x := by
  obtain ⟨c, tail, hx, hc, htail⟩ := hasNameForm_iff.1 hform
  refine ⟨⟨c, by rw [hx]; rfl, hc⟩, ?_, by simpa [isKeyword] using hkey, hlength⟩
  rw [hx]
  exact List.forall_mem_cons.2 ⟨isNameChar_of_isNameStart hc, htail⟩

theorem leadingWord_of_hasNameForm : leadingWord x.toList = x.toList := by
  obtain ⟨c, tail, hx, hc, htail⟩ := hasNameForm_iff.1 hform
  rw [leadingWord, hx, List.takeWhile_eq_self_iff]
  exact List.forall_mem_cons.2 ⟨isNameChar_of_isNameStart hc, htail⟩

theorem solid_of_hasNameForm : Solid x.toList := by
  obtain ⟨c, tail, hx, hc, -⟩ := hasNameForm_iff.1 hform
  rw [hx]
  exact solid_of_isExprStart (isExprStart_of_isNameStart hc)

theorem head?_ne_of_hasNameForm {d : Char} (hd : isNameStart d = false) : x.toList.head? ≠ some d := by
  obtain ⟨c, tail, hx, hc, -⟩ := hasNameForm_iff.1 hform
  rw [hx]
  rintro ⟨⟩
  rw [hc] at hd
  cases hd

end

theorem length_le_of_mem_keywords {x : String} (h : x ∈ keywords) : x.length ≤ maxNameLength := by
  have hall : (keywords.all fun w => w.length ≤ maxNameLength) = true := by decide
  simpa using List.all_eq_true.1 hall x h

/-! ## Parts of a text that is a single value -/

namespace Grammar

variable {cs rest : List Char} {β : Type} {q : Parser β} {j : Cursor}

theorem runs_wholeExpression (hsolid : Solid cs) (h : Runs q j (operand expression) (.ofChars cs)) :
    Runs q j wholeExpression (.ofChars cs) := by
  have hexpression : Runs q j expression (.ofChars cs) := by
    rw [expression_eq]
    exact .first h
  exact .first (.next_of_reads (reads_space_nil hsolid) fun _ _ => .first hexpression)

theorem runs_operand_of_negation (h : Runs q j (negation (operand expression)) (.ofChars cs)) :
    Runs q j (operand expression) (.ofChars cs) := by
  rw [operand_expression_eq]
  exact .alternative h

theorem runs_operand_of_value (hnot : Misses (negation (operand expression)) cs)
    (hparen : cs.head? ≠ some '(') (h : Runs q j (value expression) (.ofChars cs)) :
    Runs q j (operand expression) (.ofChars cs) := by
  rw [operand_expression_eq]
  exact .instead_of_misses hnot (.instead_of_misses (misses_parenthesized hparen) h)

end Grammar

/-- An error that a part of a text raises is the error of the text. -/
theorem Expr.parse_eq_error {text : String} {q : Parser β} {j : Cursor} {e : ReadError}
    (hq : Raises q j e) (h : Runs q j wholeExpression (.ofChars text.toList)) :
    Expr.parse text = .error e := by
  rw [Expr.parse, Parser.read, Cursor.ofString_eq, h.halt hq.halt]

/-! ## Words -/

namespace Grammar

variable {rest : List Char} {x : String}

theorem reads_reference (h : LegalName x) (hrest : Closed rest) :
    Reads (operand expression) (x.toList ++ rest) rest (· = .reference x (byteCount rest)) := by
  have hend {c : Char} (hc : c ∈ ['(', '[', '.']) : Misses (discard (char c)) rest :=
    .discard (.char (hrest.head?_ne hc))
  have hsegment : Reads (segment expression) (x.toList ++ rest) rest
      (· = ⟨⟨⟨byteCount (x.toList ++ rest)⟩, x⟩, none, []⟩) := by
    refine .bind (reads_ident_at h hrest.apart) fun y hy => ?_
    refine .bind (.maybe_none (.bind (hend (by decide)))) fun args hargs => ?_
    exact .bind (.many_nil (.bind (hend (by decide)))) fun is his => .pure (by rw [hy, hargs, his])
  have hpath : Reads (path expression) (x.toList ++ rest) rest
      (· = .var ⟨⟨byteCount (x.toList ++ rest)⟩, x⟩) := by
    refine .bind hsegment fun s hs => .bind (.many_nil (.bind (hend (by decide)))) fun others hothers => ?_
    exact .pure (by rw [hs, hothers]; rfl)
  refine (chained_expression.reads_operand_of_path h hrest.apart hpath).mono ?_
  rintro _ ⟨p, rfl, rfl⟩
  rw [Expr.reference, utf8ByteSize_eq, ← byteCount_append]

theorem misses_literal_of_hasNameForm (hform : hasNameForm x = true) (htrue : x ≠ "true")
    (hfalse : x ≠ "false") : Misses literal x.toList := by
  have hword := leadingWord_of_hasNameForm hform
  obtain ⟨c, tail, hcons, hc, -⟩ := hasNameForm_iff.1 hform
  rw [hcons] at hword ⊢
  exact misses_literal_of_word hc (hword.trans hcons.symm) htrue hfalse

/-- Of the keywords only three may start an expression. -/
theorem misses_expression_of_keyword (hx : x ∈ keywords) (hthree : x ∉ ["not", "true", "false"]) :
    Misses expression x.toList := by
  have hkey : isKeyword x = true := by simpa [isKeyword] using hx
  have hform := hasNameForm_iff.2 (exists_cons_of_isKeyword hkey)
  have hword := leadingWord_of_hasNameForm hform
  have hne {w : String} (hw : w ∈ ["not", "true", "false"]) : x ≠ w := fun h => hthree (h ▸ hw)
  have hident : Misses ident (x.toList ++ []) := misses_ident_of_keyword hkey .nil
  rw [List.append_nil] at hident
  rw [expression_eq, operand_expression_eq]
  refine .bind (.orElse (misses_negation_of_word (hne (by decide)) hword) ?_)
  refine .orElse (misses_parenthesized (head?_ne_of_hasNameForm hform (by decide))) ?_
  refine .orElse (.bind ?_) (.bind (.bind (.bind hident)))
  exact misses_literal_of_hasNameForm hform (hne (by decide)) (hne (by decide))

end Grammar

namespace Expr

variable {x y : String}

theorem parse_reference (h : LegalName x) : Expr.parse x = .ok (reference x 0) := by
  have hsolid := h.solid []
  have hread := reads_reference h .nil
  rw [List.append_nil] at hsolid hread
  obtain ⟨e, hparse, rfl⟩ := exists_parse_of_operand hsolid hread
  exact hparse

theorem parse_truthValue (b : Bool) : Expr.parse (toString b) = .ok (.literal (.boolean b)) := by
  have hread := reads_literal (v := .boolean b) trivial (by simp) .nil (by simp)
  rw [List.append_nil] at hread
  have hsolid : Solid (toString b).toList := by cases b <;> exact .of_cons (by decide) (by decide)
  obtain ⟨e, hparse, v, rfl, rfl⟩ := exists_parse_of_operand hsolid
    (chained_expression.reads_operand_of_literal hread (by cases b <;> decide) (by cases b <;> decide))
  exact hparse

theorem exists_error_of_keyword (hx : x ∈ keywords) (htrue : x ≠ "true") (hfalse : x ≠ "false") :
    ∃ e, Expr.parse x = .error e := by
  have hkey : isKeyword x = true := by simpa [isKeyword] using hx
  have hsolid := solid_of_hasNameForm (hasNameForm_iff.2 (exists_cons_of_isKeyword hkey))
  by_cases hnot : x = "not"
  · -- the word is read, and its operand is missing
    subst hnot
    have hraises : Raises (expect "operand after 'not'" (afterSpace (operand expression)))
        (.ofChars []) _ := .expected rfl
    refine ⟨_, parse_eq_error hraises (runs_wholeExpression hsolid (runs_operand_of_negation ?_))⟩
    refine .next_of_reads .here fun _ _ => ?_
    exact .next_of_reads (reads_word (List.append_nil _).symm .nil) fun _ _ => .first .self
  · have hmiss : Misses wholeExpression x.toList := by
      refine .bind (.bind_of_reads (reads_space_nil hsolid) fun _ _ => .bind ?_)
      exact misses_expression_of_keyword hx (by simp [hnot, htrue, hfalse])
    obtain ⟨m, hm⟩ := hmiss
    exact ⟨_, by rw [Expr.parse, Parser.read, Cursor.ofString_eq, hm]⟩

theorem parse_long (hform : hasNameForm x = true) (hlength : maxNameLength < x.length) :
    Expr.parse x = .error ⟨.nameTooLong, ⟨x.utf8ByteSize⟩⟩ := by
  have hne {w : String} (hw : w ∈ keywords) : x ≠ w := by
    rintro rfl
    exact Nat.not_lt.2 (length_le_of_mem_keywords hw) hlength
  have hkey : isKeyword x = false := by
    rw [Bool.eq_false_iff]
    exact fun h => hne (by simpa [isKeyword] using h) rfl
  have hword := leadingWord_of_hasNameForm hform
  have hnot : Misses (negation (operand expression)) x.toList :=
    misses_negation_of_word (hne (by decide)) hword
  have hparen := head?_ne_of_hasNameForm hform (d := '(') (by decide)
  have hliteral := misses_literal_of_hasNameForm hform (hne (by decide)) (hne (by decide))
  obtain ⟨c, tail, hcons, hc, htail⟩ := hasNameForm_iff.1 hform
  have hlabel := reads_label hcons hc htail .nil
  rw [List.append_nil] at hlabel
  obtain ⟨name, m, hdone, rfl⟩ := hlabel
  have hraises := Raises.nameTooLong hdone hkey hlength
  rw [utf8ByteSize_eq]
  refine parse_eq_error hraises (runs_wholeExpression (solid_of_hasNameForm hform) ?_)
  refine runs_operand_of_value hnot hparen (.instead_of_misses (.bind hliteral) ?_)
  exact .first (.first (.first .self))

theorem parse_not (h : LegalName x) :
    Expr.parse ("not " ++ x) = .ok (.not ⟨4 + x.utf8ByteSize⟩ (reference x 0)) := by
  have htext : ("not " ++ x).toList = "not".toList ++ ' ' :: (x.toList ++ []) := by simp
  have hread := chained_expression.reads_not (h.solid []) (reads_reference h .nil)
  rw [← htext] at hread
  have hsolid : Solid ("not " ++ x).toList := htext ▸ .of_cons (by decide) (by decide)
  obtain ⟨e, hparse, _, rfl, rfl⟩ := exists_parse_of_operand hsolid hread
  rw [hparse, ← utf8ByteSize_eq, String.utf8ByteSize_append]
  rfl

theorem parse_binary (hx : LegalName x) (hy : LegalName y) (o : Operator) {text : String}
    (htext : text.toList = x.toList ++ ' ' :: (o.text.toList ++ ' ' :: y.toList)) :
    Expr.parse text = .ok (.binary ⟨o.text.utf8ByteSize + 1 + y.utf8ByteSize⟩ o
      (reference x (1 + o.text.utf8ByteSize + 1 + y.utf8ByteSize)) (reference y 0)) := by
  have hright := reads_reference hy .nil
  have hsolid := hx.solid (' ' :: (o.text.toList ++ ' ' :: y.toList))
  have hread := chained_expression.reads_binary (hy.solid []) hright
    (reads_reference hx .blank) (o := o) ends_nil
  simp only [List.append_nil] at hread
  rw [← htext] at hread hsolid
  obtain ⟨e, hparse, _, _, rfl, rfl, rfl⟩ := exists_parse_of_reads hsolid hread
  have hsize : byteCount (o.text.toList ++ ' ' :: y.toList) = o.text.utf8ByteSize + 1 + y.utf8ByteSize := by
    rw [byteCount_append, byteCount_cons, utf8ByteSize_eq, utf8ByteSize_eq, Nat.add_assoc]
    rfl
  have hblank : ' '.utf8Size = 1 := rfl
  rw [hparse, byteCount_cons, hsize, hblank, Nat.add_assoc 1, Nat.add_assoc 1]
  rfl

/-- Words are whole. A text in the form of a name is a reference to that name, a truth value, no
expression at all if it is another keyword, or a name that is too long; and names stand beside the words
of operators for what they are, also those that begin with a keyword. -/
theorem parse_words :
    (∀ x, hasNameForm x = true →
      (x ∉ keywords → x.length ≤ 64 → Expr.parse x = .ok (reference x 0)) ∧
      (x = "true" → Expr.parse x = .ok (.literal (.boolean true))) ∧
      (x = "false" → Expr.parse x = .ok (.literal (.boolean false))) ∧
      (x ∈ keywords → x ≠ "true" → x ≠ "false" → ∃ e, Expr.parse x = .error e) ∧
      (64 < x.length → Expr.parse x = .error ⟨.nameTooLong, ⟨x.utf8ByteSize⟩⟩)) ∧
    ∀ x y, hasNameForm x = true → x ∉ keywords → x.length ≤ 64 →
      hasNameForm y = true → y ∉ keywords → y.length ≤ 64 →
      Expr.parse ("not " ++ x) = .ok (.not ⟨4 + x.utf8ByteSize⟩ (reference x 0)) ∧
      Expr.parse (x ++ " and " ++ y) = .ok (.binary ⟨4 + y.utf8ByteSize⟩ .and
        (reference x (5 + y.utf8ByteSize)) (reference y 0)) ∧
      Expr.parse (x ++ " or " ++ y) = .ok (.binary ⟨3 + y.utf8ByteSize⟩ .or
        (reference x (4 + y.utf8ByteSize)) (reference y 0)) := by
  refine ⟨fun x hform => ⟨fun hkey hlength => ?_, ?_, ?_, exists_error_of_keyword, parse_long hform⟩, ?_⟩
  · exact parse_reference (legalName_of_hasNameForm hform hkey hlength)
  · rintro rfl
    exact parse_truthValue true
  · rintro rfl
    exact parse_truthValue false
  · intro x y hxform hxkey hxlength hyform hykey hylength
    have hx := legalName_of_hasNameForm hxform hxkey hxlength
    have hy := legalName_of_hasNameForm hyform hykey hylength
    refine ⟨parse_not hx, ?_, ?_⟩
    · exact parse_binary hx hy .and (by simp [Operator.text])
    · exact parse_binary hx hy .or (by simp [Operator.text])

/-- Names that begin with a keyword, beside keywords and a name that is too long. -/
theorem parse_words_longer :
    (hasNameForm "notable" = true ∧ "notable" ∉ keywords ∧
      Expr.parse "notable" = .ok (reference "notable" 0)) ∧
    Expr.parse "true" = .ok (.literal (.boolean true)) ∧
    (∃ e, Expr.parse "not" = .error e) ∧ (∃ e, Expr.parse "endwhile" = .error e) ∧
    Expr.parse "not_a_name_since_it_has_one_more_than_the_sixty_four_letters_of_a" =
      .error ⟨.nameTooLong, ⟨65⟩⟩ ∧
    Expr.parse ("not " ++ "android") = .ok (.not ⟨11⟩ (reference "android" 0)) ∧
    Expr.parse ("android" ++ " and " ++ "order") =
      .ok (.binary ⟨9⟩ .and (reference "android" 10) (reference "order" 0)) ∧
    Expr.parse ("android" ++ " or " ++ "order") =
      .ok (.binary ⟨8⟩ .or (reference "android" 9) (reference "order" 0)) := by
  obtain ⟨hwords, hpairs⟩ := parse_words
  refine ⟨⟨by decide, by decide, (hwords "notable" (by decide)).1 (by decide) (by decide)⟩, ?_, ?_, ?_, ?_, ?_⟩
  · exact (hwords "true" (by decide)).2.1 rfl
  · exact (hwords "not" (by decide)).2.2.2.1 (by decide) (by decide) (by decide)
  · exact (hwords "endwhile" (by decide)).2.2.2.1 (by decide) (by decide) (by decide)
  · exact (hwords _ (by decide)).2.2.2.2 (by decide)
  · exact hpairs "android" "order" (by decide) (by decide) (by decide) (by decide) (by decide) (by decide)

/-! ## Whole numbers -/

/-- The whole number that is written with the sign and the digits. -/
def signedValue (sign digits : List Char) : Int :=
  if sign = ['-'] then -(Nat.ofDigitChars 10 digits 0 : Int) else Nat.ofDigitChars 10 digits 0

section
variable {sign ds : List Char} (hsign : sign ∈ signs) (hne : ds ≠ [])
variable (hds : ∀ c ∈ ds, c.isDigit = true)
include hsign hne hds

theorem parse_number {v : Literal} (hv : Literal.ofInt? (signedValue sign ds) = some v) :
    Expr.parse (String.ofList (sign ++ ds)) = .ok (.literal v) := by
  have htext : (String.ofList (sign ++ ds)).toList = sign ++ (ds ++ []) := by simp
  have hliteral := reads_literal_number hsign hne hds .nil (by simp) hv
  have hoperand := chained_expression.reads_operand_of_literal hliteral
    (head?_number_ne hsign hne hds (by decide)) (head?_number_ne hsign hne hds (by decide))
  rw [← htext] at hoperand
  have hsolid : Solid (String.ofList (sign ++ ds)).toList := htext ▸ solid_number hsign hne hds
  obtain ⟨e, hparse, _, rfl, rfl⟩ := exists_parse_of_operand hsolid hoperand
  exact hparse

theorem parse_number_out_of_range (hv : Literal.ofInt? (signedValue sign ds) = none) :
    Expr.parse (String.ofList (sign ++ ds)) = .error ⟨.numberOutOfRange, ⟨byteCount (sign ++ ds)⟩⟩ := by
  obtain ⟨negative, m, hreadSign, rfl⟩ := reads_sign hsign (head?_digits hne hds [])
  obtain ⟨digits, m', hreadDigits, rfl⟩ : Reads digits (ds ++ []) [] (· = ds) :=
    .takeWhile1 hne hds (by simp)
  have hraises := Raises.numberOutOfRange hreadSign hreadDigits (by simp only [decide_eq_true_eq]; exact hv)
  -- the number is neither a string nor a real, and so comes to the production that knows the bounds
  have hinteger : Runs integer (.ofChars (sign ++ (digits ++ []))) Grammar.literal
      (.ofChars (sign ++ (digits ++ []))) := by
    refine .instead_of_misses (misses_string_of_sign hsign hne hds) ?_
    refine .instead_of_misses (misses_real hsign hne hds .nil (by simp)) ?_
    exact .alternative .self
  have hruns : Runs integer (.ofChars (sign ++ (digits ++ []))) wholeExpression
      (.ofChars (sign ++ (digits ++ []))) := by
    refine runs_wholeExpression (solid_number hsign hne hds) (runs_operand_of_value ?_ ?_ ?_)
    · exact misses_negation_of_head (head?_number_ne hsign hne hds (by decide))
    · exact head?_number_ne hsign hne hds (by decide)
    · exact .alternative (.first hinteger)
  rw [List.append_nil] at hraises hruns
  refine parse_eq_error hraises ?_
  rwa [String.toList_ofList]

end

end Expr

end Primer
