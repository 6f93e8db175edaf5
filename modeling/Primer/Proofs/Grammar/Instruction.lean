import Primer.Grammar.Instruction
import Primer.Proofs.Grammar.Expr

/-!
What the productions for instructions give, and the equation of `instruction`. Every production that
contains instructions reads its keyword before them.
-/

namespace Primer.Grammar

open Primer.Parser

variable {x y : Parser Instruction} {n : Nat}

/-! ## What the productions give -/

/-- A block is legal if its instructions are, wherever it ends. -/
theorem gives_block (hx : Gives x Instruction.Legal) (ends : List String) :
    Gives (block x ends) Instruction.LegalAll := by
  refine Gives.mono (.many (P := Instruction.Legal) ?_) fun _ h => Instruction.legalAll_iff.2 h
  exact .bind .notFollowedBy fun _ _ => hx

theorem gives_print : Gives print Instruction.Legal := by
  refine .bind .here fun start _ => .bind gives_word fun _ _ => ?_
  have hcomma : Gives (spaced (char ',')) (· = ',') := gives_spaced .char
  refine .bind (.expect (gives_afterSpace (.sepBy1 gives_expression hcomma))) fun es hes => ?_
  exact .bind (.expect gives_lineEnd) fun _ _ => .pure hes

theorem gives_read : Gives read Instruction.Legal := by
  refine .bind gives_word fun _ _ => ?_
  refine .bind (.expect (gives_afterSpace (gives_path gives_expression))) fun target ht => ?_
  exact .bind (.expect gives_lineEnd) fun _ _ => .pure ht

theorem gives_result : Gives result Instruction.Legal := by
  refine .bind .here fun start _ => .bind gives_word fun _ _ => ?_
  refine .bind (.expect (gives_afterSpace gives_expression)) fun value hv => ?_
  exact .bind (.expect gives_lineEnd) fun _ _ => .pure hv

/-- A condition with its block, as `if` and `elsif` share it: both are legal. -/
theorem gives_conditionalBlock (hx : Gives x Instruction.Legal) (keyword : String) :
    Gives (conditionalBlock x keyword) fun cb => cb.1.Legal ∧ Instruction.LegalAll cb.2 := by
  refine .bind (.expect (gives_afterSpace gives_expression)) fun condition hc => ?_
  refine .bind (.expect (gives_afterSpace gives_word)) fun _ _ => ?_
  refine .bind (.expect gives_lineEnd) fun _ _ => ?_
  exact .bind (gives_block hx _) fun body hb => .pure ⟨hc, hb⟩

/-- What an `elsif` gives still waits for the branches behind it, and is legal with any legal ones. -/
theorem gives_elsif (hx : Gives x Instruction.Legal) :
    Gives (elsif x) fun f => ∀ a : Alternatives, a.Legal → (f a).Legal := by
  refine .bind .here fun start _ => .bind gives_word fun _ _ => ?_
  exact .bind (gives_conditionalBlock hx _) fun cb hcb => .pure fun a ha => ⟨hcb.1, hcb.2, ha⟩

theorem gives_otherwise (hx : Gives x Instruction.Legal) :
    Gives (otherwise x) Alternatives.Legal := by
  refine .bind gives_word fun _ _ => .bind (.expect gives_lineEnd) fun _ _ => ?_
  exact .bind (gives_block hx _) fun body hb => .pure hb

/-- Branches that wait for those behind them, put together from the last one on, are legal. -/
theorem legal_foldr_alternatives {fs : List (Alternatives → Alternatives)} {a : Alternatives}
    (hfs : ∀ f ∈ fs, ∀ a : Alternatives, a.Legal → (f a).Legal) (ha : a.Legal) :
    (fs.foldr (· ·) a).Legal := by
  induction fs with
  | nil => exact ha
  | cons f fs ih =>
    apply hfs f List.mem_cons_self
    exact ih fun g hg => hfs g (List.mem_cons_of_mem f hg)

/-- The branches of an `if` are read apart from each other and put together in the end. -/
theorem gives_branch (hx : Gives x Instruction.Legal) : Gives (branch x) Instruction.Legal := by
  refine .bind .here fun start _ => .bind gives_word fun _ _ => ?_
  refine .bind (gives_conditionalBlock hx _) fun cb hcb => ?_
  refine .bind (.many (gives_elsif hx)) fun elsifs helsifs => ?_
  refine .bind (.maybe (gives_otherwise hx)) fun final hfinal => ?_
  refine .bind (.expect gives_word) fun _ _ => .bind (.expect gives_lineEnd) fun _ _ => .pure ?_
  refine ⟨hcb.1, hcb.2, legal_foldr_alternatives helsifs ?_⟩
  cases final with
  | none => trivial
  | some a => exact hfinal a rfl

theorem gives_whileLoop (hx : Gives x Instruction.Legal) :
    Gives (whileLoop x) Instruction.Legal := by
  refine .bind .here fun start _ => .bind gives_word fun _ _ => ?_
  refine .bind (.expect (gives_afterSpace gives_expression)) fun condition hc => ?_
  refine .bind (.expect gives_lineEnd) fun _ _ => .bind (gives_block hx _) fun body hb => ?_
  exact .bind (.expect gives_word) fun _ _ => .bind (.expect gives_lineEnd) fun _ _ => .pure ⟨hc, hb⟩

theorem gives_untilLoop (hx : Gives x Instruction.Legal) :
    Gives (untilLoop x) Instruction.Legal := by
  refine .bind .here fun start _ => .bind gives_word fun _ _ => ?_
  refine .bind (.expect gives_lineEnd) fun _ _ => .bind (gives_block hx _) fun body hb => ?_
  refine .bind (.expect gives_word) fun _ _ => ?_
  refine .bind (.expect (gives_afterSpace gives_expression)) fun condition hc => ?_
  exact .bind (.expect gives_lineEnd) fun _ _ => .pure ⟨hb, hc⟩

theorem gives_forLoop (hx : Gives x Instruction.Legal) : Gives (forLoop x) Instruction.Legal := by
  refine .bind .here fun start _ => .bind gives_word fun _ _ => ?_
  refine .bind (.expect (gives_afterSpace gives_ident)) fun counter hcounter => ?_
  refine .bind (.expect (gives_afterSpace gives_word)) fun _ _ => ?_
  refine .bind (.expect (gives_afterSpace gives_expression)) fun first hfirst => ?_
  refine .bind (.expect (gives_afterSpace gives_word)) fun _ _ => ?_
  refine .bind (.expect (gives_afterSpace gives_expression)) fun last hlast => ?_
  refine .bind (.expect (gives_afterSpace gives_word)) fun _ _ => ?_
  refine .bind (.expect gives_lineEnd) fun _ _ => .bind (gives_block hx _) fun body hb => ?_
  refine .bind (.expect gives_word) fun _ _ => .bind (.expect gives_lineEnd) fun _ _ => .pure ?_
  exact ⟨hcounter, hfirst, hlast, hb⟩

theorem gives_guarded (hx : Gives x Instruction.Legal) : Gives (guarded x) Instruction.Legal := by
  refine .bind .here fun start _ => .bind gives_word fun _ _ => ?_
  refine .bind (.expect (gives_afterSpace gives_expression)) fun condition hc => ?_
  refine .bind (.expect (gives_afterSpace gives_word)) fun _ _ => ?_
  exact .bind (.expect (gives_afterSpace hx)) fun i hi => .pure ⟨hc, hi⟩

/-- A single `=` and not the first half of `==`, so that a comparison is not taken for an assignment. -/
theorem gives_assignSign : Gives assignSign fun _ => True :=
  .bind (.discard .char) fun _ _ => .notFollowedBy

theorem gives_assign : Gives assign Instruction.Legal := by
  refine .bind .here fun start _ => .bind (gives_path gives_expression) fun target ht => ?_
  refine .bind (gives_afterSpace gives_assignSign) fun _ _ => ?_
  refine .bind (.expect (gives_afterSpace gives_expression)) fun value hv => ?_
  exact .bind (.expect gives_lineEnd) fun _ _ => .pure ⟨ht, hv⟩

theorem gives_evaluate : Gives evaluate Instruction.Legal := by
  refine .bind gives_expression fun e he => ?_
  exact .bind (.expect gives_lineEnd) fun _ _ => .pure he

/-- One level of the recursion: the alternatives of `instruction`, with any parser for the instructions
within. -/
theorem gives_instructionBody (hx : Gives x Instruction.Legal) :
    Gives (print <|> read <|> result <|> branch x <|> whileLoop x <|> untilLoop x <|> forLoop x <|>
      guarded x <|> assign <|> evaluate) Instruction.Legal := by
  refine gives_print.orElse (gives_read.orElse (gives_result.orElse ?_))
  refine (gives_branch hx).orElse ((gives_whileLoop hx).orElse ((gives_untilLoop hx).orElse ?_))
  refine (gives_forLoop hx).orElse ((gives_guarded hx).orElse ?_)
  exact gives_assign.orElse gives_evaluate

/-- Every instruction that is read is legal, however deep. -/
theorem gives_instruction : Gives instruction Instruction.Legal :=
  .fix fun _ hx => gives_instructionBody hx

/-! ## Agreement on shorter texts -/

/-- A block adds nothing before its instructions, so it agrees as far as they do, and no further. -/
theorem near_block (h : Near n x y) (hx : Gives x Instruction.Legal) (ends : List String) :
    Near n (block x ends) (block y ends) := by
  refine .many (P := Instruction.Legal) ?_ ?_
  · exact .bind .rfl .notFollowedBy fun _ => h
  · exact .bind .notFollowedBy fun _ _ => hx

theorem near_conditionalBlock (h : Near n x y) (hx : Gives x Instruction.Legal)
    (keyword : String) : Near n (conditionalBlock x keyword) (conditionalBlock y keyword) := by
  refine .bind .rfl (.expect (gives_afterSpace gives_expression)) fun condition => ?_
  refine .bind .rfl (.expect (gives_afterSpace gives_word)) fun _ => ?_
  refine .bind .rfl (.expect gives_lineEnd) fun _ => ?_
  exact .bind (near_block h hx _) (gives_block hx _) fun _ => .rfl

theorem near_elsif (h : Near n x y) (hx : Gives x Instruction.Legal) :
    Near n (elsif x) (elsif y) := by
  refine .bind .rfl .here fun start => .bind .rfl gives_word fun _ => ?_
  exact .bind (near_conditionalBlock h hx _) (gives_conditionalBlock hx _) fun _ => .rfl

theorem near_otherwise (h : Near n x y) (hx : Gives x Instruction.Legal) :
    Near n (otherwise x) (otherwise y) := by
  refine .bind .rfl gives_word fun _ => .bind .rfl (.expect gives_lineEnd) fun _ => ?_
  exact .bind (near_block h hx _) (gives_block hx _) fun _ => .rfl

/-- The keyword comes before the blocks, so two parsers for instructions that agree on texts of less than
`n` bytes make branches that agree on one byte more. The loops below are alike. -/
theorem near_branch (h : Near n x y) (hx : Gives x Instruction.Legal) :
    Near (n + 1) (branch x) (branch y) := by
  refine .bind .rfl .here fun start => ?_
  refine .bind_of_advances .rfl gives_word (advances_word (by decide)) fun _ => ?_
  refine .bind (near_conditionalBlock h hx _) (gives_conditionalBlock hx _) fun cb => ?_
  refine .bind ((near_elsif h hx).many (gives_elsif hx)) (.many (gives_elsif hx)) fun elsifs => ?_
  exact .bind (near_otherwise h hx).maybe (.maybe (gives_otherwise hx)) fun _ => .rfl

theorem near_whileLoop (h : Near n x y) (hx : Gives x Instruction.Legal) :
    Near (n + 1) (whileLoop x) (whileLoop y) := by
  refine .bind .rfl .here fun start => ?_
  refine .bind_of_advances .rfl gives_word (advances_word (by decide)) fun _ => ?_
  refine .bind .rfl (.expect (gives_afterSpace gives_expression)) fun condition => ?_
  refine .bind .rfl (.expect gives_lineEnd) fun _ => ?_
  exact .bind (near_block h hx _) (gives_block hx _) fun _ => .rfl

theorem near_untilLoop (h : Near n x y) (hx : Gives x Instruction.Legal) :
    Near (n + 1) (untilLoop x) (untilLoop y) := by
  refine .bind .rfl .here fun start => ?_
  refine .bind_of_advances .rfl gives_word (advances_word (by decide)) fun _ => ?_
  refine .bind .rfl (.expect gives_lineEnd) fun _ => ?_
  exact .bind (near_block h hx _) (gives_block hx _) fun _ => .rfl

theorem near_forLoop (h : Near n x y) (hx : Gives x Instruction.Legal) :
    Near (n + 1) (forLoop x) (forLoop y) := by
  refine .bind .rfl .here fun start => ?_
  refine .bind_of_advances .rfl gives_word (advances_word (by decide)) fun _ => ?_
  refine .bind .rfl (.expect (gives_afterSpace gives_ident)) fun counter => ?_
  refine .bind .rfl (.expect (gives_afterSpace gives_word)) fun _ => ?_
  refine .bind .rfl (.expect (gives_afterSpace gives_expression)) fun first => ?_
  refine .bind .rfl (.expect (gives_afterSpace gives_word)) fun _ => ?_
  refine .bind .rfl (.expect (gives_afterSpace gives_expression)) fun last => ?_
  refine .bind .rfl (.expect (gives_afterSpace gives_word)) fun _ => ?_
  refine .bind .rfl (.expect gives_lineEnd) fun _ => ?_
  exact .bind (near_block h hx _) (gives_block hx _) fun _ => .rfl

/-- The guarded instruction comes behind `on`, a condition and `do`. -/
theorem near_guarded (h : Near n x y) (hx : Gives x Instruction.Legal) :
    Near (n + 1) (guarded x) (guarded y) := by
  refine .bind .rfl .here fun start => ?_
  refine .bind_of_advances .rfl gives_word (advances_word (by decide)) fun _ => ?_
  refine .bind .rfl (.expect (gives_afterSpace gives_expression)) fun condition => ?_
  refine .bind .rfl (.expect (gives_afterSpace gives_word)) fun _ => ?_
  exact .bind (near_afterSpace h).expect (.expect (gives_afterSpace hx)) fun _ => .rfl

/-- One level of the recursion agrees on texts of one byte more: this is what `fix_eq` asks for. -/
theorem near_instructionBody (h : Near n x y) (hx : Gives x Instruction.Legal) :
    Near (n + 1)
      (print <|> read <|> result <|> branch x <|> whileLoop x <|> untilLoop x <|> forLoop x <|>
        guarded x <|> assign <|> evaluate)
      (print <|> read <|> result <|> branch y <|> whileLoop y <|> untilLoop y <|> forLoop y <|>
        guarded y <|> assign <|> evaluate) := by
  refine .orElse .rfl (.orElse .rfl (.orElse .rfl ?_))
  refine (near_branch h hx).orElse ((near_whileLoop h hx).orElse ((near_untilLoop h hx).orElse ?_))
  exact (near_forLoop h hx).orElse ((near_guarded h hx).orElse .rfl)

/-- The recursion of `instruction` is never cut off: it satisfies its equation without a bound on the
depth. -/
theorem instruction_eq : instruction =
    (print <|> read <|> result <|> branch instruction <|> whileLoop instruction <|>
      untilLoop instruction <|> forLoop instruction <|> guarded instruction <|> assign <|>
      evaluate) :=
  fix_eq (fun _ hx => gives_instructionBody hx) fun _ _ _ hx _ h => near_instructionBody h hx

end Primer.Grammar
