import Primer.Proofs.ReadErrors.Parts
import Primer.Proofs.Respacing.Progress

/-!
The origin of every error of the grammar. Each production accounts for its failures, so that the error of
a program is one that an expected item, a name, a number or the name of a structure raises, and a program
is never just not matched (`Program.parse_error_committed`).
-/

namespace Primer

namespace Grammar

open Primer.Parser

/-! ## Space, words and names -/

theorem accounts_lineComment : Accounts lineComment := .bind .text fun _ => .discard .takeWhile

theorem accounts_blockComment : Accounts blockComment :=
  .bind .text fun _ => .bind .skipUntil fun _ => .text

theorem accounts_space : Accounts space :=
  .discard (.many (.orElse (.discard .takeWhile1) accounts_blockComment))

theorem accounts_blank : Accounts blank :=
  .discard (.many (.orElse (.discard .takeWhile1) (.orElse accounts_lineComment accounts_blockComment)))

theorem accounts_lineEnd : Accounts lineEnd := by
  refine .bind accounts_space fun _ => .bind (.discard (.maybe accounts_lineComment)) fun _ => ?_
  exact .bind (.orElse (.discard .satisfy) .atEnd) fun _ => accounts_blank

theorem accounts_afterSpace {p : Parser α} (h : Accounts p) : Accounts (afterSpace p) :=
  .bind accounts_space fun _ => h

theorem accounts_spaced {p : Parser α} (h : Accounts p) : Accounts (spaced p) :=
  .bind accounts_space fun _ => .bind h fun _ => .bind accounts_space fun _ => .pure

theorem accounts_word {w : String} : Accounts (word w) :=
  .bind .text fun _ => .notFollowedBy .satisfy

theorem accounts_ahead {words : List String} : Accounts (ahead words) := by
  refine .lookAhead (.choice fun p hp => ?_)
  obtain ⟨w, -, rfl⟩ := List.mem_map.1 hp
  exact accounts_word

theorem accounts_label : Accounts label :=
  .bind .satisfy fun _ => .bind .takeWhile fun _ => .pure

theorem accounts_ident : Accounts ident := by
  intro i
  refine Accounts.here.bind_within List.suffix_rfl .first fun start _ _ hstart => ?_
  cases hstart
  refine accounts_label.bind_within List.suffix_rfl (fun h => .next rfl (.first h))
    fun name rest m hname => ?_
  split
  · exact .missAt
  case isFalse hkey =>
    split
    case isTrue hlength =>
      exact .halt .self (.nameTooLong hname (by simpa using hkey) hlength) List.suffix_rfl
    case isFalse => exact .done (accounts_label.done hname).1 .none

/-! ## Literals -/

theorem accounts_string : Accounts string := by
  refine .bind (.discard .satisfy) fun _ => .expect (.bind (.many (.orElse ?_ ?_)) fun _ => ?_)
  · exact .bind .satisfy fun _ => .pure
  · exact .bind .satisfy fun _ => .bind .satisfy fun _ => .pure
  · exact .bind (.discard .satisfy) fun _ => .pure

theorem accounts_sign : Accounts sign := .bind (.maybe .satisfy) fun _ => .pure

theorem accounts_real : Accounts real := by
  refine .bind accounts_sign fun _ => .bind .takeWhile1 fun _ => ?_
  refine .bind (.discard .satisfy) fun _ => .bind .takeWhile1 fun _ => ?_
  exact .bind (.notFollowedBy .satisfy) fun _ => .pure

theorem accounts_integer : Accounts integer := by
  intro i
  refine Accounts.here.bind_within List.suffix_rfl .first fun start _ _ hstart => ?_
  cases hstart
  refine accounts_sign.bind_within List.suffix_rfl (fun h => .next rfl (.first h))
    fun negative k m hsign => ?_
  have hk := (accounts_sign.done hsign).1
  refine Accounts.bind_within (p := digits) .takeWhile1 hk
    (fun h => .next rfl (.next hsign (.first h))) fun ds rest m' hdigits => ?_
  cases hvalue : Literal.ofInt? (if negative then -(ofDigits ds : Int) else ofDigits ds) with
  | some v => exact .done ((Accounts.takeWhile1.done hdigits).1.trans hk) .none
  | none => exact .halt .self (.numberOutOfRange hsign hdigits hvalue) List.suffix_rfl

theorem accounts_literal : Accounts literal := by
  refine accounts_string.orElse (accounts_real.orElse (accounts_integer.orElse (.orElse ?_ ?_)))
  · exact .bind accounts_word fun _ => .pure
  · exact .bind accounts_word fun _ => .pure

/-! ## Expressions -/

section
variable {x : Parser Expr} (hx : Accounts x)
include hx

theorem accounts_callArguments : Accounts (callArguments x) := by
  refine .bind (.discard .satisfy) fun _ => .bind (.orElse ?_ ?_) fun _ => ?_
  · exact .bind (.discard (.lookAhead (accounts_afterSpace .satisfy))) fun _ => .pure
  · exact .sepBy1 (accounts_spaced hx) .satisfy
  · exact .bind (.discard (.expect (accounts_afterSpace .satisfy))) fun _ => .pure

/-- An expression between brackets. -/
theorem accounts_bracketed {start stop : Char → Bool} {item item' : String} :
    Accounts (do
      discard <| satisfy start
      let e ← expect item (spaced x)
      discard <| expect item' (satisfy stop)
      return e) := by
  refine .bind (.discard .satisfy) fun _ => .bind (.expect (accounts_spaced hx)) fun _ => ?_
  exact .bind (.discard (.expect .satisfy)) fun _ => .pure

theorem accounts_segment : Accounts (segment x) := by
  refine .bind accounts_ident fun _ => .bind (.maybe (accounts_callArguments hx)) fun _ => ?_
  exact .bind (.many (accounts_bracketed hx)) fun _ => .pure

theorem accounts_path : Accounts (path x) := by
  refine .bind (accounts_segment hx) fun _ => .bind (.many ?_) fun _ => .pure
  exact .bind (.discard .satisfy) fun _ => .expect (accounts_segment hx)

theorem accounts_value : Accounts (value x) :=
  .orElse (.bind accounts_literal fun _ => .pure) (.bind (accounts_path hx) fun _ => .pure)

theorem accounts_operand : Accounts (operand x) := by
  refine .fix fun p hp => .orElse ?_ ((accounts_bracketed hx).orElse (accounts_value hx))
  refine .bind .here fun _ => .bind accounts_word fun _ => ?_
  exact .bind (.expect (accounts_afterSpace hp)) fun _ => .pure

omit hx in
theorem accounts_operatorSign (o : Operator) : Accounts (operatorSign o) := by
  cases o with
  | divide => exact .bind .text fun _ => .notFollowedBy .satisfy
  | and | or => exact accounts_word
  | _ => exact .text

omit hx in
theorem accounts_operator : Accounts operator := by
  refine .choice fun p hp => ?_
  obtain ⟨o, -, rfl⟩ := List.mem_map.1 hp
  exact .bind (accounts_operatorSign o) fun _ => .pure

theorem accounts_link : Accounts (link x) := by
  refine .bind accounts_space fun _ => .bind .here fun _ => .bind accounts_operator fun _ => ?_
  exact .bind (.expect (accounts_afterSpace (accounts_operand hx))) fun _ => .pure

end

theorem accounts_expression : Accounts expression :=
  .fix fun _ hx => .bind (accounts_operand hx) fun _ => .bind (.many (accounts_link hx)) fun _ => .pure

/-! ## Instructions -/

/-- An item after space, with what follows it. -/
theorem accounts_item {p : Parser α} {f : α → Parser β} {item : String} (hp : Accounts p)
    (hf : ∀ a, Accounts (f a)) : Accounts (expect item (afterSpace p) >>= f) :=
  .bind (.expect (accounts_afterSpace hp)) hf

/-- The end of a line, with what follows it. -/
theorem accounts_line {f : Unit → Parser β} {item : String} (hf : ∀ a, Accounts (f a)) :
    Accounts (expect item lineEnd >>= f) := .bind (.expect accounts_lineEnd) hf

/-- The word that closes a block, with what follows it. -/
theorem accounts_close {f : Unit → Parser β} {item w : String} (hf : ∀ a, Accounts (f a)) :
    Accounts (expect item (word w) >>= f) := .bind (.expect accounts_word) hf

theorem accounts_print : Accounts print := by
  refine .bind .here fun _ => .bind accounts_word fun _ => ?_
  refine accounts_item (.sepBy1 accounts_expression (accounts_spaced .satisfy)) fun _ => ?_
  exact accounts_line fun _ => .pure

theorem accounts_read : Accounts read := by
  refine .bind accounts_word fun _ => accounts_item (accounts_path accounts_expression) fun _ => ?_
  exact accounts_line fun _ => .pure

theorem accounts_result : Accounts result := by
  refine .bind .here fun _ => .bind accounts_word fun _ => accounts_item accounts_expression fun _ => ?_
  exact accounts_line fun _ => .pure

theorem accounts_assign : Accounts assign := by
  refine .bind .here fun _ => .bind (accounts_path accounts_expression) fun _ => ?_
  refine .bind (accounts_afterSpace ?_) fun _ => accounts_item accounts_expression fun _ => ?_
  · exact .bind (.discard .satisfy) fun _ => .notFollowedBy .satisfy
  · exact accounts_line fun _ => .pure

theorem accounts_evaluate : Accounts evaluate :=
  .bind accounts_expression fun _ => accounts_line fun _ => .pure

section
variable {x : Parser Instruction} (hx : Accounts x)
include hx

theorem accounts_block (ends : List String) : Accounts (block x ends) :=
  .many (.bind (.notFollowedBy accounts_ahead) fun _ => hx)

theorem accounts_conditionalBlock (keyword : String) : Accounts (conditionalBlock x keyword) := by
  refine accounts_item accounts_expression fun _ => accounts_item accounts_word fun _ => ?_
  exact accounts_line fun _ => .bind (accounts_block hx _) fun _ => .pure

theorem accounts_branch : Accounts (branch x) := by
  refine .bind .here fun _ => .bind accounts_word fun _ => ?_
  refine .bind (accounts_conditionalBlock hx _) fun _ => ?_
  refine .bind (.many ?_) fun _ => .bind (.maybe ?_) fun _ => ?_
  · refine .bind .here fun _ => .bind accounts_word fun _ => ?_
    exact .bind (accounts_conditionalBlock hx _) fun _ => .pure
  · refine .bind accounts_word fun _ => accounts_line fun _ => ?_
    exact .bind (accounts_block hx _) fun _ => .pure
  · exact accounts_close fun _ => accounts_line fun _ => .pure

theorem accounts_whileLoop : Accounts (whileLoop x) := by
  refine .bind .here fun _ => .bind accounts_word fun _ => accounts_item accounts_expression fun _ => ?_
  refine accounts_line fun _ => .bind (accounts_block hx _) fun _ => ?_
  exact accounts_close fun _ => accounts_line fun _ => .pure

theorem accounts_untilLoop : Accounts (untilLoop x) := by
  refine .bind .here fun _ => .bind accounts_word fun _ => accounts_line fun _ => ?_
  refine .bind (accounts_block hx _) fun _ => accounts_close fun _ => ?_
  exact accounts_item accounts_expression fun _ => accounts_line fun _ => .pure

theorem accounts_forLoop : Accounts (forLoop x) := by
  refine .bind .here fun _ => .bind accounts_word fun _ => accounts_item accounts_ident fun _ => ?_
  refine accounts_item accounts_word fun _ => accounts_item accounts_expression fun _ => ?_
  refine accounts_item accounts_word fun _ => accounts_item accounts_expression fun _ => ?_
  refine accounts_item accounts_word fun _ => accounts_line fun _ => ?_
  refine .bind (accounts_block hx _) fun _ => ?_
  exact accounts_close fun _ => accounts_line fun _ => .pure

theorem accounts_guarded : Accounts (guarded x) := by
  refine .bind .here fun _ => .bind accounts_word fun _ => accounts_item accounts_expression fun _ => ?_
  exact accounts_item accounts_word fun _ => accounts_item hx fun _ => .pure

end

theorem accounts_instruction : Accounts instruction := by
  refine .fix fun _ hx => accounts_print.orElse (accounts_read.orElse (accounts_result.orElse ?_))
  refine (accounts_branch hx).orElse ((accounts_whileLoop hx).orElse ((accounts_untilLoop hx).orElse ?_))
  refine (accounts_forLoop hx).orElse ((accounts_guarded hx).orElse ?_)
  exact accounts_assign.orElse accounts_evaluate

/-! ## Declarations -/

section
variable {known : List String}

theorem accounts_namedType : Accounts (namedType known) := by
  intro i
  refine Accounts.here.bind_within List.suffix_rfl .first fun start _ _ hstart => ?_
  cases hstart
  refine accounts_ident.bind_within List.suffix_rfl (fun h => .next rfl (.first h))
    fun x rest m hname => ?_
  split
  case isTrue => exact .done (accounts_ident.done hname).1 .none
  case isFalse hknown =>
    exact .halt .self (.undefinedStructure hname (by simpa using hknown)) List.suffix_rfl

theorem accounts_type : Accounts (type known) := by
  refine .fix fun p hp => .orElse (.choice fun q hq => ?_) (.orElse ?_ accounts_namedType)
  · obtain ⟨t, -, rfl⟩ := List.mem_map.1 hq
    exact .bind accounts_word fun _ => .pure
  · exact .bind accounts_word fun _ => accounts_item accounts_word fun _ => accounts_item hp fun _ => .pure

theorem accounts_symbol : Accounts (symbol known) := by
  refine .bind accounts_ident fun _ => .bind (.discard (.expect (accounts_spaced .satisfy))) fun _ => ?_
  exact .bind (.expect accounts_type) fun _ => .pure

theorem accounts_structureDeclaration : Accounts (structureDeclaration known) := by
  refine .bind accounts_word fun _ => accounts_item accounts_ident fun _ => accounts_line fun _ => ?_
  refine .bind (.many ?_) fun _ => accounts_close fun _ => accounts_line fun _ => .pure
  exact .bind accounts_symbol fun _ => accounts_line fun _ => .pure

theorem accounts_constantDeclaration : Accounts (constantDeclaration known) := by
  refine .bind accounts_word fun _ => accounts_item accounts_symbol fun _ => ?_
  refine .bind (.discard (.expect (accounts_spaced .satisfy))) fun _ => ?_
  exact .bind (.expect accounts_expression) fun _ => accounts_line fun _ => .pure

/-- A line with a keyword and a symbol. -/
theorem accounts_symbolLine {keyword item item' : String} :
    Accounts (do
      word keyword
      let s ← expect item (afterSpace (symbol known))
      expect item' lineEnd
      return s) :=
  .bind accounts_word fun _ => accounts_item accounts_symbol fun _ => accounts_line fun _ => .pure

theorem accounts_parameter : Accounts (parameter known) := by
  refine .bind (.expect (.choice fun p hp => ?_)) fun _ => accounts_item accounts_symbol fun _ => .pure
  obtain ⟨m, -, rfl⟩ := List.mem_map.1 hp
  exact .bind accounts_word fun _ => .pure

theorem accounts_parameters : Accounts (parameters known) := by
  refine .bind (.discard (.expect (accounts_afterSpace .satisfy))) fun _ => ?_
  refine .bind (.orElse ?_ (.sepBy1 (accounts_spaced accounts_parameter) .satisfy)) fun _ => ?_
  · exact .bind (.discard (.lookAhead (accounts_afterSpace .satisfy))) fun _ => .pure
  · exact .bind (.discard (.expect (accounts_afterSpace .satisfy))) fun _ => .pure

theorem accounts_routineBody : Accounts (routineBody known) := by
  refine accounts_line fun _ => .bind (.many accounts_symbolLine) fun _ => ?_
  refine .bind (accounts_block accounts_instruction _) fun _ => ?_
  exact accounts_close fun _ => accounts_line fun _ => .pure

theorem accounts_declaration : Accounts (declaration known) := by
  refine .orElse (.bind accounts_structureDeclaration fun _ => .pure) ?_
  refine .orElse (.bind accounts_constantDeclaration fun _ => .pure) ?_
  refine .orElse (.bind accounts_symbolLine fun _ => .pure) (.orElse ?_ ?_)
  · refine .bind (.bind accounts_word fun _ => accounts_item accounts_ident fun _ => ?_) fun _ => .pure
    refine .bind accounts_parameters fun _ => .bind (.discard (.expect (accounts_spaced .satisfy))) fun _ => ?_
    exact .bind (.expect accounts_type) fun _ => .bind accounts_routineBody fun _ => .pure
  · refine .bind (.bind accounts_word fun _ => accounts_item accounts_ident fun _ => ?_) fun _ => .pure
    exact .bind accounts_parameters fun _ => .bind accounts_routineBody fun _ => .pure

end

theorem accounts_program : Accounts program := by
  refine .bind accounts_blank fun _ => accounts_close fun _ => accounts_item accounts_ident fun _ => ?_
  refine accounts_line fun _ => .bind (.manyWith fun _ => accounts_declaration) fun _ => ?_
  exact .bind (.expect .atEnd) fun _ => .pure

theorem accounts_wholeExpression : Accounts wholeExpression :=
  .bind (accounts_spaced accounts_expression) fun _ => .bind .atEnd fun _ => .pure

end Grammar

namespace Program

open Primer.Parser

theorem parse_eq_error_iff {s : String} {e : ReadError} :
    Program.parse s = .error e ↔ Grammar.program (.ofString s) = .halt e := by
  rw [Program.parse, Parser.read]
  cases h : Grammar.program (.ofString s) with
  | done p rest m => simp
  | miss m => exact absurd h (Grammar.answers_program _ m)
  | halt e' => simp

/-- A program is not read exactly if one of the productions that it runs raises the error. -/
theorem parse_eq_error_iff_raises {s : String} {e : ReadError} :
    Program.parse s = .error e ↔
      ∃ (β : Type) (q : Parser β) (j : Cursor), Runs q j Grammar.program (.ofString s) ∧ Raises q j e := by
  rw [parse_eq_error_iff]
  constructor
  · intro h
    have hi := Grammar.accounts_program (.ofString s)
    rw [h] at hi
    cases hi with
    | halt hruns hraises _ => exact ⟨_, _, _, hruns, hraises⟩
  · rintro ⟨β, q, j, hruns, hraises⟩
    exact hruns.halt hraises.halt

/-- **Errors are committed.** A program is not read exactly if one of the productions that it runs raises
the error, so that something that was begun lacks a part, or a name or number is not allowed. And what a
part halts with, any production that runs the part halts with. -/
theorem parse_error_committed :
    (∀ s e, Program.parse s = .error e ↔
      ∃ (β : Type) (q : Parser β) (j : Cursor), Runs q j Grammar.program (.ofString s) ∧ Raises q j e) ∧
    (∀ s e, Program.parse s = .error e →
      (∃ item, e.cause = .expected item) ∨ e.cause = .numberOutOfRange ∨ e.cause = .nameTooLong ∨
        ∃ name, e.cause = .undefinedStructure name) ∧
    ∀ (α β : Type) (p : Parser α) (q : Parser β) (i j : Cursor) (e : ReadError),
      Runs q j p i → q j = .halt e → p i = .halt e := by
  refine ⟨fun s e => parse_eq_error_iff_raises, fun s e h => ?_,
    fun α β p q i j e hruns hq => hruns.halt hq⟩
  obtain ⟨β, q, j, -, hraises⟩ := parse_eq_error_iff_raises.1 h
  cases hraises with
  | expected => exact .inl ⟨_, rfl⟩
  | numberOutOfRange => exact .inr (.inl rfl)
  | nameTooLong => exact .inr (.inr (.inl rfl))
  | undefinedStructure => exact .inr (.inr (.inr ⟨_, rfl⟩))

/-- The type of the second member of `a` names a structure that comes later. -/
def laterStructureText : String :=
  "program t\nstructure a\nx : real\ny : vector of b\nend\nstructure b\nend\n"

theorem parse_error_committed_later :
    Program.parse laterStructureText = .error ⟨.undefinedStructure "b", ⟨22⟩⟩ ∧
    ∃ (β : Type) (q : Parser β) (j : Cursor),
      Runs q j Grammar.program (.ofString laterStructureText) ∧
        Raises q j ⟨.undefinedStructure "b", ⟨22⟩⟩ := by
  have h : Program.parse laterStructureText = .error ⟨.undefinedStructure "b", ⟨22⟩⟩ := by
    decide +kernel
  exact ⟨h, (parse_error_committed.1 _ _).1 h⟩

end Program

end Primer
