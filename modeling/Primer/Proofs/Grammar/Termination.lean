import Mathlib.Logic.Function.Iterate
import Primer.Proofs.Grammar.Declaration
import Primer.Proofs.ReadErrors.Origin

/-!
Reading ends, whatever the text. The parsers count repetitions and recursions down from the size of the
text, and a repetition stops at an item that reads nothing. None of this ever shows: every item that the
grammar repeats reads something, so that a repetition is the unbounded one (`Iterates`), and every
production that refers to itself reads something before it does, so that no depth of recursion at which it
might be cut off is reached (`Unfolds`).
-/

namespace Primer

open Primer.Parser

/-- The answer of a repetition after one more item in front. -/
def Reply.cons (a : α) (mark : Mark) : Reply (List α) → Reply (List α)
  | done as rest m => done (a :: as) rest (mark.join m)
  | miss m => miss (mark.join m)
  | halt e => halt e

namespace Parser

variable {p : Parser α} {f : α → Parser β} {P : α → Prop}

/-! ## Progress -/

namespace Advances

theorem of_bytes_lt (hp : Gives p P) (h : ∀ i a j m, p i = .done a j m → j.bytes < i.bytes) :
    Advances p := by
  intro i a j m hi
  have hs := (hp hi).1
  refine Nat.lt_of_le_of_ne hs.length_le fun hlen => ?_
  have hlt := h i a j m hi
  rw [i.bytes_eq, j.bytes_eq, hs.eq_of_length hlen] at hlt
  exact Nat.lt_irrefl _ hlt

theorem takeWhile1 {t : Char → Bool} : Advances (takeWhile1 t) := by
  intro i cs j m h
  simp only [Parser.takeWhile1] at h
  split at h
  · cases h
  case isFalse hne =>
    cases h
    have hpos : 0 < (i.chars.takeWhile t).length := List.length_pos_iff.2 fun hnil => hne (by simp [hnil])
    have hle := (List.takeWhile_prefix t (l := i.chars)).length_le
    rw [Cursor.chars_skip, List.length_drop]
    omega

theorem bind_right (hp : Gives p P) (hf : ∀ a, Advances (f a)) : Advances (p >>= f) := by
  intro i b k m h
  obtain ⟨a, j, m', m'', hpi, hfa⟩ := done_of_bind h
  exact Nat.lt_of_lt_of_le (hf a hfa) (hp hpi).1.length_le

theorem choice {ps : List (Parser α)} (h : ∀ p ∈ ps, Advances p) : Advances (choice ps) := by
  induction ps with
  | nil => intro i a j m hp; cases hp
  | cons p ps ih =>
    exact (h p List.mem_cons_self).orElse (ih fun q hq => h q (List.mem_cons_of_mem p hq))

end Advances

/-! ## Repetition without bounds -/

/-- The answers of a repetition that goes on until an item misses, however many there are, and whether or
not they read something. -/
inductive Iterates (p : List α → Parser α) : List α → Cursor → Reply (List α) → Prop where
  | stop (h : p earlier i = .miss m) : Iterates p earlier i (.done [] i m)
  | halt (h : p earlier i = .halt e) : Iterates p earlier i (.halt e)
  | item (h : p earlier i = .done a j m) (hrest : Iterates p (a :: earlier) j r) :
    Iterates p earlier i (r.cons a m)

namespace Iterates

variable {p : List α → Parser α} {earlier : List α} {i : Cursor} {r r' : Reply (List α)}

theorem unique (h : Iterates p earlier i r) (h' : Iterates p earlier i r') : r = r' := by
  induction h generalizing r' with
  | stop h =>
    cases h' with
    | stop h' => rw [h] at h'; cases h'; rfl
    | halt h' | item h' => rw [h] at h'; cases h'
  | halt h =>
    cases h' with
    | halt h' => rw [h] at h'; cases h'; rfl
    | stop h' | item h' => rw [h] at h'; cases h'
  | item h _ ih =>
    cases h' with
    | stop h' | halt h' => rw [h] at h'; cases h'
    | item h' hrest' =>
      rw [h] at h'
      cases h'
      rw [ih hrest']

/-- Where each item reads something, a bound beyond what remains is never reached. -/
theorem manyWithin (h : ∀ as i a j m, p as i = .done a j m → j.bytes < i.bytes) {n : Nat}
    (hi : i.bytes < n) : Iterates p earlier i (manyWithin p n earlier i) := by
  induction n generalizing earlier i with
  | zero => exact absurd hi (Nat.not_lt_zero _)
  | succ n ih =>
    rw [Parser.manyWithin]
    split
    case h_1 a j m hp =>
      have hlt := h earlier i a j m hp
      rw [if_neg (Nat.ne_of_lt hlt)]
      exact .item hp (ih (by omega))
    case h_2 hp => exact .stop hp
    case h_3 hp => exact .halt hp

/-- A repetition of items that read something is the unbounded one. -/
theorem manyWith_iff (h : ∀ as i a j m, p as i = .done a j m → j.bytes < i.bytes) :
    manyWith p i = r ↔ Iterates p [] i r := by
  have hmany : Iterates p [] i (manyWith p i) := manyWithin h (Nat.lt_succ_self _)
  exact ⟨fun hr => hr ▸ hmany, hmany.unique⟩

end Iterates

/-! ## Recursion without bounds -/

/-- The recursion is never cut off: one level deeper than the text has bytes it gives the answer, whatever
error would stand for what goes deeper. -/
def Unfolds (f : Parser α → Parser α) (p : Parser α) : Prop :=
  ∀ (k : Cursor) (cause : ReadError.Cause) (n : Nat) (i : Cursor), i.bytes < n →
    f^[n] (haltAt k cause) i = p i

theorem gives_iterate {f : Parser α → Parser α} (hgives : ∀ p, Gives p P → Gives (f p) P)
    (hp : Gives p P) (n : Nat) : Gives (f^[n] p) P := by
  induction n with
  | zero => exact hp
  | succ n ih =>
    rw [Function.iterate_succ_apply']
    exact hgives _ ih

theorem unfolds_fix {f : Parser α → Parser α} (hgives : ∀ p, Gives p P → Gives (f p) P)
    (hnear : ∀ n p q, Gives p P → Gives q P → Near n p q → Near (n + 1) (f p) (f q)) :
    Unfolds f (fix f) := by
  intro k cause n
  -- by induction on the depth: one level more agrees on texts of one byte more
  change Near n (f^[n] (haltAt k cause)) (fix f)
  induction n with
  | zero => exact fun i hi => absurd hi (Nat.not_lt_zero _)
  | succ n ih =>
    rw [Function.iterate_succ_apply', fix_eq hgives hnear]
    exact hnear n _ _ (gives_iterate hgives .haltAt n) (.fix hgives) ih

/-! ## Failures -/

theorem done_or_miss_of_bind (h : (p >>= f) i = .miss m) :
    (∃ a j m' m'', p i = .done a j m' ∧ f a j = .miss m'') ∨ ∃ m', p i = .miss m' := by
  simp only [bind_apply, Parser.bind] at h
  split at h
  case h_1 a j m' hp =>
    cases hf : f a j with
    | miss m'' => exact .inl ⟨a, j, m', m'', hp, hf⟩
    | done _ _ _ | halt _ => rw [hf] at h; cases h
  case h_2 m' hp => exact .inr ⟨m', hp⟩
  case h_3 => cases h

theorem miss_of_bind (h : (p >>= f) i = .miss m) (hf : ∀ a, Answers (f a)) : ∃ m', p i = .miss m' := by
  rcases done_or_miss_of_bind h with ⟨a, j, m', m'', -, hmiss⟩ | hp
  · exact absurd hmiss (hf a j m'')
  · exact hp

theorem done_of_read {s : String} (h : (p.read s).toOption.isSome = true) :
    ∃ a j m, p (.ofString s) = .done a j m := by
  rw [Parser.read] at h
  split at h
  case h_1 a j m hp => exact ⟨a, j, m, hp⟩
  all_goals cases h

theorem Accounts.cause_ne_noMatch (h : Accounts p) (hp : p i = .halt e) : e.cause ≠ .noMatch := by
  have hi := h i
  rw [hp] at hi
  cases hi with
  | halt _ hraises _ => cases hraises <;> simp

end Parser

namespace Grammar

/-- The productions of the grammar. -/
inductive Production : {α : Type} → Parser α → Prop where
  -- space, words and names
  | lineComment : Production lineComment
  | blockComment : Production blockComment
  | space : Production space
  | blank : Production blank
  | lineEnd : Production lineEnd
  | expect {p : Parser α} (h : Production p) : Production (expect item p)
  | afterSpace {p : Parser α} (h : Production p) : Production (afterSpace p)
  | spaced {p : Parser α} (h : Production p) : Production (spaced p)
  | word : Production (word w)
  | ahead : Production (ahead words)
  | label : Production label
  | ident : Production ident
  -- literals
  | stringItem : Production stringItem
  | string : Production string
  | sign : Production sign
  | digits : Production digits
  | real : Production real
  | integer : Production integer
  | boolean : Production boolean
  | literal : Production literal
  -- expressions
  | callArguments : Production (callArguments expression)
  | index : Production (index expression)
  | segment : Production (segment expression)
  | path : Production (path expression)
  | value : Production (value expression)
  | operatorSign : Production (operatorSign o)
  | operator : Production operator
  | parenthesized : Production (parenthesized expression)
  | negation : Production (negation (operand expression))
  | operand : Production (operand expression)
  | link : Production (link expression)
  | expression : Production expression
  -- instructions
  | block : Production (block instruction ends)
  | print : Production print
  | read : Production read
  | result : Production result
  | conditionalBlock : Production (conditionalBlock instruction keyword)
  | elsif : Production (elsif instruction)
  | otherwise : Production (otherwise instruction)
  | branch : Production (branch instruction)
  | whileLoop : Production (whileLoop instruction)
  | untilLoop : Production (untilLoop instruction)
  | forLoop : Production (forLoop instruction)
  | guarded : Production (guarded instruction)
  | assignSign : Production assignSign
  | assign : Production assign
  | evaluate : Production evaluate
  | instruction : Production instruction
  -- types and declarations
  | scalarType : Production scalarType
  | vectorType : Production (vectorType (type known))
  | namedType : Production (namedType known)
  | type : Production (type known)
  | symbol : Production (symbol known)
  | structureDeclaration : Production (structureDeclaration known)
  | constantDeclaration : Production (constantDeclaration known)
  | globalDeclaration : Production (globalDeclaration known)
  | localDeclaration : Production (localDeclaration known)
  | mode : Production mode
  | parameter : Production (parameter known)
  | parameters : Production (parameters known)
  | routineBody : Production (routineBody known)
  | functionDeclaration : Production (functionDeclaration known)
  | procedureDeclaration : Production (procedureDeclaration known)
  | declaration : Production (declaration known)
  | declarations : Production declarations
  -- whole texts
  | program : Production program
  | wholeExpression : Production wholeExpression

theorem gives_ahead {words : List String} : Gives (ahead words) fun _ => True := by
  refine .lookAhead (.choice fun p hp => ?_)
  obtain ⟨w, -, rfl⟩ := List.mem_map.1 hp
  exact gives_word

theorem gives_wholeExpression : Gives wholeExpression Expr.Legal :=
  .bind (gives_spaced gives_expression) fun _ he => .bind .atEnd fun _ _ => .pure he

theorem Production.gives {p : Parser α} (h : Production p) : ∃ P, Gives p P := by
  induction h with
  | lineComment => exact ⟨_, gives_lineComment⟩
  | blockComment => exact ⟨_, gives_blockComment⟩
  | space => exact ⟨_, gives_space⟩
  | blank => exact ⟨_, gives_blank⟩
  | lineEnd => exact ⟨_, gives_lineEnd⟩
  | expect _ ih =>
    obtain ⟨P, hp⟩ := ih
    exact ⟨P, hp.expect⟩
  | afterSpace _ ih =>
    obtain ⟨P, hp⟩ := ih
    exact ⟨P, gives_afterSpace hp⟩
  | spaced _ ih =>
    obtain ⟨P, hp⟩ := ih
    exact ⟨P, gives_spaced hp⟩
  | word => exact ⟨_, gives_word⟩
  | ahead => exact ⟨_, gives_ahead⟩
  | label => exact ⟨_, gives_label⟩
  | ident => exact ⟨_, gives_ident⟩
  | stringItem => exact ⟨_, gives_stringItem⟩
  | string => exact ⟨_, gives_string⟩
  | sign => exact ⟨_, gives_sign⟩
  | digits => exact ⟨_, .takeWhile1⟩
  | real => exact ⟨_, gives_real⟩
  | integer => exact ⟨_, gives_integer⟩
  | boolean => exact ⟨_, gives_boolean⟩
  | literal => exact ⟨_, gives_literal⟩
  | callArguments => exact ⟨_, gives_callArguments gives_expression⟩
  | index => exact ⟨_, gives_index gives_expression⟩
  | segment => exact ⟨_, gives_segment gives_expression⟩
  | path => exact ⟨_, gives_path gives_expression⟩
  | value => exact ⟨_, gives_value gives_expression⟩
  | operatorSign => exact ⟨_, gives_operatorSign _⟩
  | operator => exact ⟨_, gives_operator⟩
  | parenthesized => exact ⟨_, gives_parenthesized gives_expression⟩
  | negation => exact ⟨_, gives_negation (gives_operand gives_expression)⟩
  | operand => exact ⟨_, gives_operand gives_expression⟩
  | link => exact ⟨_, gives_link gives_expression⟩
  | expression => exact ⟨_, gives_expression⟩
  | block => exact ⟨_, gives_block gives_instruction _⟩
  | print => exact ⟨_, gives_print⟩
  | read => exact ⟨_, gives_read⟩
  | result => exact ⟨_, gives_result⟩
  | conditionalBlock => exact ⟨_, gives_conditionalBlock gives_instruction _⟩
  | elsif => exact ⟨_, gives_elsif gives_instruction⟩
  | otherwise => exact ⟨_, gives_otherwise gives_instruction⟩
  | branch => exact ⟨_, gives_branch gives_instruction⟩
  | whileLoop => exact ⟨_, gives_whileLoop gives_instruction⟩
  | untilLoop => exact ⟨_, gives_untilLoop gives_instruction⟩
  | forLoop => exact ⟨_, gives_forLoop gives_instruction⟩
  | guarded => exact ⟨_, gives_guarded gives_instruction⟩
  | assignSign => exact ⟨_, gives_assignSign⟩
  | assign => exact ⟨_, gives_assign⟩
  | evaluate => exact ⟨_, gives_evaluate⟩
  | instruction => exact ⟨_, gives_instruction⟩
  | scalarType => exact ⟨_, @gives_scalarType []⟩
  | vectorType => exact ⟨_, gives_vectorType gives_type⟩
  | namedType => exact ⟨_, gives_namedType⟩
  | type => exact ⟨_, gives_type⟩
  | symbol => exact ⟨_, gives_symbol⟩
  | structureDeclaration => exact ⟨_, gives_structureDeclaration⟩
  | constantDeclaration => exact ⟨_, gives_constantDeclaration⟩
  | globalDeclaration => exact ⟨_, gives_globalDeclaration⟩
  | localDeclaration => exact ⟨_, gives_localDeclaration⟩
  | mode => exact ⟨_, gives_mode⟩
  | parameter => exact ⟨_, gives_parameter⟩
  | parameters => exact ⟨_, gives_parameters⟩
  | routineBody => exact ⟨_, gives_routineBody⟩
  | functionDeclaration => exact ⟨_, gives_functionDeclaration⟩
  | procedureDeclaration => exact ⟨_, gives_procedureDeclaration⟩
  | declaration => exact ⟨_, gives_declaration⟩
  | declarations =>
    exact ⟨_, .manyWith (I := fun _ => True) trivial fun _ _ => gives_declaration.mono fun _ _ => trivial⟩
  | program => exact ⟨_, gives_program⟩
  | wholeExpression => exact ⟨_, gives_wholeExpression⟩

/-! ## The repetitions -/

/-- The items that productions of the grammar repeat, each with the earlier ones, latest first. -/
inductive Repeated : {α : Type} → (List α → Parser α) → Prop where
  | space : Repeated fun _ => discard (takeWhile1 isInlineSpace) <|> blockComment
  | blank : Repeated fun _ => discard (takeWhile1 isSpace) <|> lineComment <|> blockComment
  | character : Repeated fun _ => stringItem
  | argument : Repeated fun _ => char ',' >>= fun _ => spaced expression
  | index : Repeated fun _ => index expression
  | member : Repeated fun _ => do
    discard <| char '.'
    expect "member name after '.'" (segment expression)
  | link : Repeated fun _ => link expression
  | printed : Repeated fun _ => spaced (char ',') >>= fun _ => expression
  | instruction : Repeated fun _ => do
    notFollowedBy (ahead ends)
    instruction
  | elsif : Repeated fun _ => elsif instruction
  | structureMember : Repeated fun _ => do
    let member ← symbol known
    expect "end of line after member" lineEnd
    return member
  | localDeclaration : Repeated fun _ => localDeclaration known
  | parameter : Repeated fun _ => char ',' >>= fun _ => spaced (parameter known)
  | declaration : Repeated fun earlier => declaration (structureNames earlier)

theorem advances_lineComment : Advances lineComment :=
  (Advances.text (by decide)).bind fun _ => .discard .takeWhile

theorem advances_blockComment : Advances blockComment :=
  (Advances.text (by decide)).bind fun _ => .bind .skipUntil fun _ _ => .text

theorem advances_operator : Advances operator := by
  refine .choice fun p hp => ?_
  obtain ⟨o, -, rfl⟩ := List.mem_map.1 hp
  refine Advances.bind (R := fun _ => True) ?_ fun _ => .pure trivial
  cases o with
  | divide => exact (Advances.text (by decide)).bind fun _ => .notFollowedBy
  | and | or => exact advances_word (by decide)
  | _ => exact .text (by decide)

theorem advances_link : Advances (link expression) := by
  refine .bind_right gives_space fun _ => .bind_right .here fun start => ?_
  refine advances_operator.bind (R := fun _ => True) fun o => ?_
  exact .bind (.expect (gives_afterSpace (gives_operand gives_expression))) fun _ _ => .pure trivial

theorem advances_elsif : Advances (elsif instruction) := by
  refine .bind_right .here fun start => ?_
  refine (advances_word (by decide)).bind (R := fun _ => True) fun _ => ?_
  exact .bind (gives_conditionalBlock gives_instruction _) fun _ _ => .pure trivial

theorem advances_index : Advances (index expression) := by
  refine (Advances.discard .satisfy).bind (R := fun _ => True) fun _ => ?_
  refine .bind (.expect (gives_spaced gives_expression)) fun e _ => ?_
  exact .bind (.discard (.expect .char)) fun _ _ => .pure trivial

-- What these begin with differs; that they read something is known from comparing a text with itself.
theorem advances_instruction : Advances instruction :=
  .of_bytes_lt gives_instruction fun _ _ _ _ =>
    Parallel.bytes_lt fun _ => Respacing.instruction (W := .identity)

theorem advances_symbol : Advances (symbol known) :=
  .of_bytes_lt gives_symbol fun _ _ _ _ =>
    Parallel.bytes_lt fun _ => Respacing.symbol (W := .identity)

theorem advances_localDeclaration : Advances (localDeclaration known) := by
  refine (advances_word (by decide)).bind (R := fun _ => True) fun _ => ?_
  refine .bind (.expect (gives_afterSpace gives_symbol)) fun s _ => ?_
  exact .bind (.expect gives_lineEnd) fun _ _ => .pure trivial

theorem Repeated.gives {p : List α → Parser α} (h : Repeated p) (earlier : List α) :
    ∃ P, Gives (p earlier) P := by
  cases h with
  | space => exact ⟨_, .orElse (.discard .takeWhile1) gives_blockComment⟩
  | blank => exact ⟨_, .orElse (.discard .takeWhile1) (.orElse gives_lineComment gives_blockComment)⟩
  | character => exact ⟨_, gives_stringItem⟩
  | argument => exact ⟨_, .bind .char fun _ _ => gives_spaced gives_expression⟩
  | index => exact ⟨_, gives_index gives_expression⟩
  | member => exact ⟨_, .bind (.discard .char) fun _ _ => .expect (gives_segment gives_expression)⟩
  | link => exact ⟨_, gives_link gives_expression⟩
  | printed => exact ⟨_, .bind (gives_spaced .char) fun _ _ => gives_expression⟩
  | instruction => exact ⟨_, .bind .notFollowedBy fun _ _ => gives_instruction⟩
  | elsif => exact ⟨_, gives_elsif gives_instruction⟩
  | structureMember =>
    exact ⟨_, .bind gives_symbol fun _ hs => .bind (.expect gives_lineEnd) fun _ _ => .pure hs⟩
  | localDeclaration => exact ⟨_, gives_localDeclaration⟩
  | parameter => exact ⟨_, .bind .char fun _ _ => gives_spaced gives_parameter⟩
  | declaration => exact ⟨_, gives_declaration⟩

/-- Every item that the grammar repeats reads something. -/
theorem Repeated.advances {p : List α → Parser α} (h : Repeated p) (earlier : List α) :
    Advances (p earlier) := by
  cases h with
  | space => exact .orElse (.discard .takeWhile1) advances_blockComment
  | blank => exact .orElse (.discard .takeWhile1) (.orElse advances_lineComment advances_blockComment)
  | character => exact advances_stringItem
  | argument => exact Advances.satisfy.bind fun _ => gives_spaced gives_expression
  | index => exact advances_index
  | member =>
    exact (Advances.discard .satisfy).bind fun _ => .expect (gives_segment gives_expression)
  | link => exact advances_link
  | printed =>
    refine Advances.bind ?_ fun _ => gives_expression
    refine .bind_right gives_space fun _ => ?_
    exact Advances.satisfy.bind (R := fun _ => True) fun _ => .bind gives_space fun _ _ => .pure trivial
  | instruction => exact .bind_right .notFollowedBy fun _ => advances_instruction
  | elsif => exact advances_elsif
  | structureMember =>
    refine advances_symbol.bind (R := fun _ => True) fun _ => ?_
    exact .bind (.expect gives_lineEnd) fun _ _ => .pure trivial
  | localDeclaration => exact advances_localDeclaration
  | parameter => exact Advances.satisfy.bind fun _ => gives_spaced gives_parameter
  | declaration => exact .of_bytes_lt gives_declaration fun _ _ _ _ => bytes_lt_of_declaration

theorem Repeated.bytes_lt {p : List α → Parser α} (h : Repeated p) (as : List α) (i : Cursor) (a : α)
    (j : Cursor) (m : Mark) (hp : p as i = .done a j m) : j.bytes < i.bytes := by
  obtain ⟨P, hgives⟩ := h.gives as
  exact (h.advances as).bytes_lt hgives hp

theorem Repeated.answers {p : List α → Parser α} (h : Repeated p) : Answers (manyWith p) :=
  .manyWith h.bytes_lt

/-! ## The recursions -/

/-- The productions that refer to themselves, each with what it unfolds to. -/
inductive Recursive : {α : Type} → (Parser α → Parser α) → Parser α → Prop where
  | operand : Recursive (fun x => negation x <|> parenthesized expression <|> value expression)
    (operand expression)
  | expression : Recursive (fun x => do
    let first ← operand x
    let links ← many (link x)
    return Expr.ofChain first links) expression
  | instruction : Recursive (fun x => print <|> read <|> result <|> branch x <|> whileLoop x <|>
    untilLoop x <|> forLoop x <|> guarded x <|> assign <|> evaluate) instruction
  | type : Recursive (fun x => scalarType <|> vectorType x <|> namedType known) (type known)

theorem Recursive.unfolds {f : Parser α → Parser α} {p : Parser α} (h : Recursive f p) :
    p = f p ∧ Unfolds f p := by
  cases h with
  | operand =>
    refine ⟨operand_expression_eq, unfolds_fix (fun _ hp => gives_operandBody gives_expression hp) ?_⟩
    exact fun _ _ _ hp _ hnear => (near_negation hnear hp).orElse .rfl
  | expression =>
    refine ⟨expression_eq, unfolds_fix (fun _ hx => gives_chain hx gives_ofChain) ?_⟩
    exact fun _ _ _ hx hy hnear => near_chain _ hx hy hnear
  | instruction =>
    refine ⟨instruction_eq, unfolds_fix (fun _ hx => gives_instructionBody hx) ?_⟩
    exact fun _ _ _ hx _ hnear => near_instructionBody hnear hx
  | type =>
    refine ⟨type_eq _, unfolds_fix (fun _ hp => gives_typeBody hp) ?_⟩
    exact fun _ _ _ hp _ hnear => near_typeBody hnear hp

/-! ## Whole texts -/

theorem answers_space : Answers space :=
  Repeated.space.answers.bind fun _ i m h => by cases h

/-- An expression is missing only where its first operand is. -/
theorem operand_miss_of_expression (h : expression i = .miss m) :
    ∃ m', operand expression i = .miss m' := by
  rw [expression_eq] at h
  refine miss_of_bind h fun first => ?_
  exact Repeated.link.answers.bind fun links j m h => by cases h

/-- A text misses to be an expression only because there is no operand at its beginning, or because
something remains. -/
theorem wholeExpression_miss (h : wholeExpression i = .miss m) :
    (∃ m', afterSpace (operand expression) i = .miss m') ∨
      ∃ e j m', spaced expression i = .done e j m' ∧ j.chars ≠ [] := by
  rcases done_or_miss_of_bind h with ⟨e, j, m', m'', he, hend⟩ | ⟨m', hm⟩
  · refine .inr ⟨e, j, m', he, fun hnil => ?_⟩
    simp [bind_apply, Parser.bind, atEnd, hnil, pure_apply, Reply.after] at hend
  · rcases done_or_miss_of_bind hm with ⟨_, k, m₁, m₂, hspace, hm⟩ | ⟨m', hm⟩
    · have hclosing (e : Expr) : Answers (do Grammar.space; return e) :=
        answers_space.bind fun _ i m h => by cases h
      obtain ⟨m₃, hm⟩ := miss_of_bind hm hclosing
      obtain ⟨m₄, hm⟩ := operand_miss_of_expression hm
      refine .inl ⟨m₁.join m₄, ?_⟩
      simp [afterSpace, bind_apply, Parser.bind, hspace, hm, Reply.after]
    · exact absurd hm (answers_space i m')

/-- **Reading makes progress and ends.** Every production of the grammar ends within the text, and every
item that is repeated reads a character of it at least. So a repetition is the one without bounds, which
never fails for want of progress; recursion is never cut off, however deep a text nests; a program is
never just not matched, and an expression is not matched only if there is none or something remains. -/
theorem reading_terminates :
    (∀ {α : Type} {p : Parser α}, Production p → ∀ i a j m, p i = .done a j m → j.chars <:+ i.chars) ∧
    (∀ {α : Type} {p : List α → Parser α}, Repeated p →
      (∀ earlier i a j m, p earlier i = .done a j m →
        j.chars <:+ i.chars ∧ j.chars.length < i.chars.length) ∧
      (∀ i r, manyWith p i = r ↔ Iterates p [] i r) ∧ ∀ i m, manyWith p i ≠ .miss m) ∧
    (∀ {α : Type} {f : Parser α → Parser α} {p : Parser α}, Recursive f p → p = f p ∧ Unfolds f p) ∧
    (∀ s e, Program.parse s = .error e → e.cause ≠ .noMatch) ∧
    ∀ s e, Expr.parse s = .error e → e.cause = .noMatch →
      (∃ m, afterSpace (operand expression) (.ofString s) = .miss m) ∨
        ∃ x j m, spaced expression (.ofString s) = .done x j m ∧ j.chars ≠ [] := by
  refine ⟨fun hp i a j m hi => ?_, fun hp => ⟨fun earlier i a j m hi => ?_, fun i r => ?_, hp.answers⟩,
    Recursive.unfolds, fun s e hs => ?_, fun s e hs he => ?_⟩
  · obtain ⟨P, hgives⟩ := hp.gives
    exact (hgives hi).1
  · obtain ⟨P, hgives⟩ := hp.gives earlier
    exact ⟨(hgives hi).1, hp.advances earlier hi⟩
  · exact Iterates.manyWith_iff hp.bytes_lt
  · exact accounts_program.cause_ne_noMatch (Program.parse_eq_error_iff.1 hs)
  · simp only [Expr.parse, Parser.read] at hs
    split at hs
    case h_1 => cases hs
    case h_2 m hm => exact wholeExpression_miss hm
    case h_3 e' hhalt =>
      cases hs
      exact absurd he (accounts_wholeExpression.cause_ne_noMatch hhalt)

/-- Links, and what does not belong to them. -/
def linksText : String := " + not (a[0]) or -1 , b"

theorem reading_terminates_links :
    (∃ l j m, link expression (.ofString linksText) = .done l j m ∧ j.chars <:+ linksText.toList ∧
      j.chars.length < linksText.toList.length) ∧
    (∃ r, Iterates (fun _ => link expression) [] (.ofString linksText) r ∧ ∀ m, r ≠ .miss m) ∧
    Expr.parse ("a" ++ linksText) = .error ⟨.noMatch, ⟨3⟩⟩ ∧
    ∃ x j m, spaced expression (.ofString ("a" ++ linksText)) = .done x j m ∧ j.chars ≠ [] := by
  obtain ⟨-, hrepeated, -, -, hexpr⟩ := reading_terminates
  obtain ⟨hitem, hmany, hmiss⟩ := hrepeated .link
  obtain ⟨l, j, m, hlink⟩ := done_of_read (p := link expression) (s := linksText) rfl
  obtain ⟨x, k, m', hfirst⟩ := done_of_read (p := afterSpace (operand expression))
    (s := "a" ++ linksText) rfl
  have herror : Expr.parse ("a" ++ linksText) = .error ⟨.noMatch, ⟨3⟩⟩ := rfl
  refine ⟨⟨l, j, m, hlink, hitem [] _ _ _ _ hlink⟩, ⟨_, (hmany _ _).1 rfl, hmiss _⟩, herror, ?_⟩
  rcases hexpr _ _ herror rfl with ⟨m, hmissing⟩ | hrest
  · rw [hfirst] at hmissing
    cases hmissing
  · exact hrest

end Grammar

end Primer
