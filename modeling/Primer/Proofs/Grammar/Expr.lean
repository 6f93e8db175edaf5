import Primer.Grammar.Expr
import Primer.Proofs.Grammar.Chain
import Primer.Proofs.Grammar.Lexical

/-!
What the productions for expressions give, and the equations of the recursive ones. Each production is
taken with any parser for the expressions in it: one that gives legal expressions makes it give legal
syntax, and two that agree on shorter texts make it agree.
-/

namespace Primer

/-- The name, the arguments and the indices of a segment are legal. -/
def Segment.Legal (s : Segment) : Prop :=
  LegalName s.ident.name ∧ (∀ args, s.args = some args → ∀ e ∈ args, e.Legal) ∧
    ∀ e ∈ s.indices, e.Legal

namespace Path

/-- Indices are put on a path one after the other, and leave it legal. -/
theorem legal_foldl_index {base : Path} {indices : List Expr} (hbase : base.Legal)
    (h : ∀ e ∈ indices, e.Legal) : (indices.foldl .index base).Legal := by
  induction indices generalizing base with
  | nil => exact hbase
  | cons e indices ih =>
    apply ih
    · exact ⟨hbase, h e List.mem_cons_self⟩
    · exact fun i hi => h i (List.mem_cons_of_mem e hi)

end Path

namespace Segment

theorem Legal.start {s : Segment} (h : s.Legal) : s.start.Legal := by
  obtain ⟨hname, hargs, hindices⟩ := h
  refine Path.legal_foldl_index ?_ hindices
  split
  · exact hname
  case h_2 args hs => exact ⟨hname, Expr.legalAll_iff.2 (hargs args hs)⟩

/-- A legal segment goes on from a legal path to a legal one. -/
theorem Legal.extend {s : Segment} (h : s.Legal) {base : Path} (hbase : base.Legal) :
    (s.extend base).Legal := by
  obtain ⟨hname, hargs, hindices⟩ := h
  refine Path.legal_foldl_index ?_ hindices
  split
  · exact ⟨hbase, hname⟩
  case h_2 args hs => exact ⟨hbase, hname, Expr.legalAll_iff.2 (hargs args hs)⟩

/-- A path is legal if its segments are. -/
theorem legal_foldl_extend {segments : List Segment} {p : Path} (hp : p.Legal)
    (h : ∀ s ∈ segments, s.Legal) : (segments.foldl (fun p s => s.extend p) p).Legal := by
  induction segments generalizing p with
  | nil => exact hp
  | cons s segments ih =>
    apply ih
    · exact (h s List.mem_cons_self).extend hp
    · exact fun t ht => h t (List.mem_cons_of_mem s ht)

end Segment

/-! ## Chains -/

/-- An expression with legal operands is legal: operators and their places are not restricted. -/
theorem ChainTree.legal_toExpr {t : ChainTree} (h : ∀ e, .operand e ∈ t.parts → e.Legal) :
    t.toExpr.Legal := by
  induction t with
  | operand e => exact h e List.mem_cons_self
  | node position o left right ihleft ihright =>
    constructor
    · exact ihleft fun e he => h e (List.mem_append_left _ he)
    · exact ihright fun e he => h e (List.mem_append_right _ (List.mem_cons_of_mem _ he))

/-- However legal operands are grouped, what they make is legal. -/
theorem ChainTree.legal_ofChain (weight : Operator → Nat) {first : Expr} {links : List Link}
    (hfirst : first.Legal) (hlinks : ∀ l ∈ links, l.operand.Legal) :
    (ChainTree.ofChain weight first links).toExpr.Legal := by
  refine legal_toExpr fun e he => ?_
  rw [parts_ofChain, operand_mem_chainParts] at he
  rcases he with rfl | ⟨l, hl, rfl⟩
  · exact hfirst
  · exact hlinks l hl

theorem Expr.legal_ofChain {first : Expr} {links : List Link} (hfirst : first.Legal)
    (hlinks : ∀ l ∈ links, l.operand.Legal) : (Expr.ofChain first links).Legal := by
  rw [← ChainTree.toExpr_ofChain]
  exact ChainTree.legal_ofChain _ hfirst hlinks

namespace Grammar

open Primer.Parser

variable {x y : Parser Expr} {n : Nat}

/-! ## What the productions give -/

/-- The list of arguments may be empty: the closing parenthesis is looked for before the first of them. -/
theorem gives_callArguments (hx : Gives x Expr.Legal) :
    Gives (callArguments x) fun args => ∀ e ∈ args, e.Legal := by
  refine .bind (.discard .char) fun _ _ => .bind (P := fun args => ∀ e ∈ args, e.Legal) ?_ ?_
  · refine .orElse ?_ ?_
    · exact .bind (.discard (.lookAhead (gives_afterSpace .char))) fun _ _ => .pure (by simp)
    · exact (Gives.sepBy1 (gives_spaced hx) .char).mono fun _ h => h.2
  · exact fun args hargs => .bind (.discard (.expect (gives_afterSpace .char))) fun _ _ => .pure hargs

theorem gives_index (hx : Gives x Expr.Legal) : Gives (index x) Expr.Legal := by
  refine .bind (.discard .char) fun _ _ => .bind (.expect (gives_spaced hx)) fun e he => ?_
  exact .bind (.discard (.expect .char)) fun _ _ => .pure he

/-- A segment gives its name first, then arguments if it is called, then indices. -/
theorem gives_segment (hx : Gives x Expr.Legal) : Gives (segment x) Segment.Legal := by
  refine .bind gives_ident fun ident hident => ?_
  refine .bind (.maybe (gives_callArguments hx)) fun args hargs => ?_
  refine .bind (.many (gives_index hx)) fun indices hindices => ?_
  exact .pure ⟨hident, hargs, hindices⟩

/-- The segments of a path are read one by one and put together from the left. -/
theorem gives_path (hx : Gives x Expr.Legal) : Gives (path x) Path.Legal := by
  refine .bind (gives_segment hx) fun first hfirst => ?_
  refine .bind (.many (.bind (.discard .char) fun _ _ => .expect (gives_segment hx)))
    fun others hothers => .pure ?_
  exact Segment.legal_foldl_extend hfirst.start hothers

/-- A value is a literal or a path. -/
theorem gives_value (hx : Gives x Expr.Legal) : Gives (value x) Expr.Legal := by
  refine .orElse (.bind gives_literal fun _ hv => .pure hv) ?_
  exact .bind (gives_path hx) fun _ hp => .pure hp

theorem gives_operatorSign (o : Operator) : Gives (operatorSign o) fun _ => True := by
  cases o with
  | divide => exact .bind .text fun _ _ => .notFollowedBy
  | and | or => exact gives_word
  | _ => exact .text

theorem gives_operator : Gives operator fun _ => True := by
  refine .choice fun p hp => ?_
  obtain ⟨o, -, rfl⟩ := List.mem_map.1 hp
  exact .bind (gives_operatorSign o) fun _ _ => .pure trivial

theorem gives_parenthesized (hx : Gives x Expr.Legal) : Gives (parenthesized x) Expr.Legal := by
  refine .bind (.discard .char) fun _ _ => .bind (.expect (gives_spaced hx)) fun e he => ?_
  exact .bind (.discard (.expect .char)) fun _ _ => .pure he

theorem gives_negation {p : Parser Expr} (hp : Gives p Expr.Legal) :
    Gives (negation p) Expr.Legal := by
  refine .bind .here fun start _ => .bind gives_word fun _ _ => ?_
  exact .bind (.expect (gives_afterSpace hp)) fun e he => .pure he

/-- One level of the recursion of `operand`, which goes on behind `not` only. -/
theorem gives_operandBody {p : Parser Expr} (hx : Gives x Expr.Legal) (hp : Gives p Expr.Legal) :
    Gives (negation p <|> parenthesized x <|> value x) Expr.Legal :=
  (gives_negation hp).orElse ((gives_parenthesized hx).orElse (gives_value hx))

theorem gives_operand (hx : Gives x Expr.Legal) : Gives (operand x) Expr.Legal :=
  .fix fun _ hp => gives_operandBody hx hp

theorem gives_link (hx : Gives x Expr.Legal) : Gives (link x) fun l => l.operand.Legal := by
  refine .bind gives_space fun _ _ => .bind .here fun start _ => .bind gives_operator fun o _ => ?_
  exact .bind (.expect (gives_afterSpace (gives_operand hx))) fun e he => .pure he

/-- A chain, of which a parser of its own makes an expression. -/
theorem gives_chain {tree : Expr → List Link → Parser Expr} (hx : Gives x Expr.Legal)
    (htree : ∀ first links, first.Legal → (∀ l ∈ links, l.operand.Legal) →
      Gives (tree first links) Expr.Legal) :
    Gives (do
      let first ← operand x
      let links ← many (link x)
      tree first links) Expr.Legal := by
  refine .bind (gives_operand hx) fun first hfirst => ?_
  exact .bind (.many (gives_link hx)) fun links hlinks => htree first links hfirst hlinks

/-- What `expression` makes of a chain is legal, as `gives_chain` asks for. -/
theorem gives_ofChain (first : Expr) (links : List Link) (hfirst : first.Legal)
    (hlinks : ∀ l ∈ links, l.operand.Legal) :
    Gives (pure (Expr.ofChain first links)) Expr.Legal :=
  .pure (Expr.legal_ofChain hfirst hlinks)

/-- Every expression that is read is legal, however deep. -/
theorem gives_expression : Gives expression Expr.Legal :=
  .fix fun _ hx => gives_chain hx gives_ofChain

/-! ## Agreement on shorter texts -/

/-- The arguments stand behind a parenthesis, so they are read from a shorter text. -/
theorem near_callArguments (h : Near n x y) (hx : Gives x Expr.Legal) :
    Near (n + 1) (callArguments x) (callArguments y) := by
  refine .bind_of_advances .rfl (.discard .char) (.discard .satisfy) fun _ => ?_
  refine .bind (P := fun _ => True) ?_ ?_ fun _ => .rfl
  · exact .orElse .rfl (.sepBy1 (near_spaced h hx) (gives_spaced hx) .char)
  · refine .orElse ?_ ?_
    · exact .bind (.discard (.lookAhead (gives_afterSpace .char))) fun _ _ => .pure trivial
    · exact (Gives.sepBy1 (gives_spaced hx) .char).mono fun _ _ => trivial

theorem near_index (h : Near n x y) (hx : Gives x Expr.Legal) :
    Near (n + 1) (index x) (index y) := by
  refine .bind_of_advances .rfl (.discard .char) (.discard .satisfy) fun _ => ?_
  exact .bind (near_spaced h hx).expect (.expect (gives_spaced hx)) fun _ => .rfl

/-- A segment has expressions only in its arguments and indices, each of which starts with a bracket. -/
theorem near_segment (h : Near n x y) (hx : Gives x Expr.Legal) :
    Near (n + 1) (segment x) (segment y) := by
  refine .bind .rfl gives_ident fun ident => ?_
  refine .bind (near_callArguments h hx).maybe (.maybe (gives_callArguments hx)) fun args => ?_
  exact .bind ((near_index h hx).many (gives_index hx)) (.many (gives_index hx)) fun _ => .rfl

/-- A path starts with a segment and goes on with others behind points. -/
theorem near_path (h : Near n x y) (hx : Gives x Expr.Legal) : Near (n + 1) (path x) (path y) := by
  have hmember : Gives (do discard <| char '.'; expect "member name after '.'" (segment x))
      Segment.Legal := .bind (.discard .char) fun _ _ => .expect (gives_segment hx)
  refine .bind (near_segment h hx) (gives_segment hx) fun first => ?_
  refine .bind (.many ?_ hmember) (.many hmember) fun _ => .rfl
  exact .bind .rfl (.discard .char) fun _ => (near_segment h hx).expect

theorem near_value (h : Near n x y) (hx : Gives x Expr.Legal) :
    Near (n + 1) (value x) (value y) :=
  .orElse .rfl (.bind (near_path h hx) (gives_path hx) fun _ => .rfl)

theorem near_parenthesized (h : Near n x y) (hx : Gives x Expr.Legal) :
    Near (n + 1) (parenthesized x) (parenthesized y) := by
  refine .bind_of_advances .rfl (.discard .char) (.discard .satisfy) fun _ => ?_
  exact .bind (near_spaced h hx).expect (.expect (gives_spaced hx)) fun _ => .rfl

/-- The operand of `not` comes behind the word. -/
theorem near_negation {p q : Parser Expr} (h : Near n p q) (hp : Gives p Expr.Legal) :
    Near (n + 1) (negation p) (negation q) := by
  refine .bind .rfl .here fun start => ?_
  refine .bind_of_advances .rfl gives_word (advances_word (by decide)) fun _ => ?_
  exact .bind (near_afterSpace h).expect (.expect (gives_afterSpace hp)) fun _ => .rfl

/-- The recursion of `operand` behind `not` is never cut off. -/
theorem operand_eq (hx : Gives x Expr.Legal) :
    operand x = (negation (operand x) <|> parenthesized x <|> value x) :=
  fix_eq (fun _ hp => gives_operandBody hx hp) fun _ _ _ hp _ h => (near_negation h hp).orElse .rfl

/-- By induction on the number of bytes, since an operand contains operands as well as expressions. -/
theorem near_operand (hx : Gives x Expr.Legal) (hy : Gives y Expr.Legal) (h : Near n x y) :
    Near (n + 1) (operand x) (operand y) := by
  induction n with
  | zero =>
    rw [operand_eq hx, operand_eq hy]
    have hnone : Near 0 (operand x) (operand y) := fun _ hi => absurd hi (Nat.not_lt_zero _)
    exact (near_negation hnone (gives_operand hx)).orElse
      ((near_parenthesized h hx).orElse (near_value h hx))
  | succ n ih =>
    rw [operand_eq hx, operand_eq hy]
    exact (near_negation (ih (h.mono (Nat.le_succ n))) (gives_operand hx)).orElse
      ((near_parenthesized h hx).orElse (near_value h hx))

theorem near_link (hx : Gives x Expr.Legal) (hy : Gives y Expr.Legal) (h : Near n x y) :
    Near (n + 1) (link x) (link y) := by
  refine .bind .rfl gives_space fun _ => .bind .rfl .here fun start => ?_
  refine .bind .rfl gives_operator fun o => ?_
  exact .bind (near_afterSpace (near_operand hx hy h)).expect
    (.expect (gives_afterSpace (gives_operand hx))) fun _ => .rfl

/-- A chain agrees on one byte more than the expressions in it, whatever is made of it in the end. -/
theorem near_chain (tree : Expr → List Link → Parser Expr) (hx : Gives x Expr.Legal)
    (hy : Gives y Expr.Legal) (h : Near n x y) :
    Near (n + 1)
      (do let first ← operand x; let links ← many (link x); tree first links)
      (do let first ← operand y; let links ← many (link y); tree first links) := by
  refine .bind (near_operand hx hy h) (gives_operand hx) fun first => ?_
  exact .bind ((near_link hx hy h).many (gives_link hx)) (.many (gives_link hx)) fun _ => .rfl

/-- The recursion of `expression` is never cut off: its equation holds without a bound on the depth. -/
theorem expression_eq : expression = do
    let first ← operand expression
    let links ← many (link expression)
    return Expr.ofChain first links :=
  fix_eq (fun _ hx => gives_chain hx gives_ofChain) fun _ _ _ hx hy h => near_chain _ hx hy h

/-- The equation of `operand` for the operands of the grammar itself. -/
theorem operand_expression_eq : operand expression =
    (negation (operand expression) <|> parenthesized expression <|> value expression) :=
  operand_eq gives_expression

end Grammar

end Primer
