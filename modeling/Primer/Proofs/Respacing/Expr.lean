import Primer.Proofs.Respacing.Lexical
import Primer.Proofs.RoundTrip.Expr

/-!
Expressions in two texts with the same tokens. Each production is taken with a parser of its own for
the expressions in either text. Operands and expressions refer to each other, so that they are followed
together, by induction on what remains of the text.
-/

namespace Primer

namespace Respacing

open Primer.Parser Primer.Grammar

variable {W : Respacing} {n : Nat} {x y : Parser Expr}

/-! ## Paths -/

/-- The arguments stand behind a parenthesis, so that the expressions are followed on shorter texts. -/
theorem callArguments (h : W.Tokens n x y (W.Alike Expr.relocate)) :
    W.Tokens (n + 1) (Grammar.callArguments x) (Grammar.callArguments y)
      (List.Forall₂ (W.Alike Expr.relocate)) :=
  (char (by decide)).discard.bind_shorter fun _ _ _ => listed h

theorem index (h : W.Tokens n x y (W.Alike Expr.relocate)) :
    W.Tokens (n + 1) (Grammar.index x) (Grammar.index y) (W.Alike Expr.relocate) :=
  enclosed (by decide) (by decide) h

/-- A name, then arguments and indices, which may be missing in both texts only. -/
theorem segment (h : W.Tokens n x y (W.Alike Expr.relocate)) :
    W.Tokens (n + 1) (Grammar.segment x) (Grammar.segment y) (W.Alike Segment.relocate) := by
  refine ident.bind_left fun name name' hname => ?_
  refine (((callArguments h).start W.amid_of_behind).maybe fun _ _ hij => hij).bind ?_
  intro args args' hargs
  refine ((index h).start W.amid_of_behind).many.bind fun indices indices' hindices => .pure ?_
  have hargs : args.map (List.map (Expr.relocate W.left)) =
      args'.map (List.map (Expr.relocate W.right)) := by
    cases hargs with
    | none => rfl
    | some hargs => exact congrArg some (Alike.map hargs)
  simp only [Alike, Segment.relocate, Segment.mk.injEq]
  exact ⟨hname, hargs, Alike.map hindices⟩

theorem path (h : W.Tokens n x y (W.Alike Expr.relocate)) :
    W.Tokens (n + 1) (Grammar.path x) (Grammar.path y) (W.Alike Path.relocate) := by
  have hmember : W.Tokens (n + 1)
      (do discard <| Parser.char '.'; Grammar.expect "member name after '.'" (Grammar.segment x))
      (do discard <| Parser.char '.'; Grammar.expect "member name after '.'" (Grammar.segment y))
      (W.Alike Segment.relocate) := by
    refine (char (by decide)).discard.bind_left fun _ _ _ => ?_
    exact ((expect (segment h)).start W.amid_of_behind).less
  refine (segment h).bind_left fun first first' hfirst => ?_
  refine (hmember.start W.amid_of_behind).many.bind fun others others' hothers => .pure ?_
  rw [Alike, Segment.relocate_foldl_extend, Segment.relocate_foldl_extend, Segment.relocate_start,
    Segment.relocate_start, hfirst.eq, Alike.map hothers]

theorem value (h : W.Tokens n x y (W.Alike Expr.relocate)) :
    W.Tokens (n + 1) (Grammar.value x) (Grammar.value y) (W.Alike Expr.relocate) := by
  refine .orElse ?_ ?_
  · refine literal.bind_left ?_
    rintro v _ rfl
    exact .pure rfl
  · refine (path h).bind_left fun p q hpq => .pure ?_
    exact congrArg Expr.path hpq

/-! ## Operands and operators -/

theorem operator : W.Token n Grammar.operator Eq :=
  .operator steps_tokenChar W.amid_of_behind (W.divide n)

theorem parenthesized (h : W.Tokens n x y (W.Alike Expr.relocate)) :
    W.Tokens (n + 1) (Grammar.parenthesized x) (Grammar.parenthesized y) (W.Alike Expr.relocate) :=
  enclosed (by decide) (by decide) h

theorem negation {p q : Parser Expr} (h : W.Tokens n p q (W.Alike Expr.relocate)) :
    W.Tokens (n + 1) (Grammar.negation p) (Grammar.negation q) (W.Alike Expr.relocate) := by
  refine Parallel.here.bind fun start start' hstart => (word (by decide)).bind_shorter fun _ _ _ => ?_
  refine (expectNext h).bind fun e e' he => .pure ?_
  exact congrArg₂ Expr.not (W.point _ _ hstart) he

theorem link (h : W.Tokens n (operand x) (operand y) (W.Alike Expr.relocate)) :
    W.Tokens n (Grammar.link x) (Grammar.link y) (W.Alike Link.relocate) := by
  refine (W.space n).bind fun _ _ _ => Parallel.here.bind fun start start' hstart => ?_
  refine operator.bind_left ?_
  rintro o _ rfl
  refine (expectNext h).bind fun e e' he => .pure ?_
  exact congrArg₂ (Link.mk · o ·) (W.point _ _ hstart) he

/-- Operands on longer texts, from operands and expressions on shorter ones. -/
theorem operand_succ (hx : Chained x) (hy : Chained y)
    (hoperand : W.Tokens n (operand x) (operand y) (W.Alike Expr.relocate))
    (h : W.Tokens n x y (W.Alike Expr.relocate)) :
    W.Tokens (n + 1) (operand x) (operand y) (W.Alike Expr.relocate) := by
  rw [hx.operand_eq, hy.operand_eq]
  exact (negation hoperand).orElse ((parenthesized h).orElse (value h))

/-- Operands refer to expressions and expressions to operands. Both are followed at once, by induction on
the number of bytes that are left. -/
theorem operand_and_expression (n : Nat) : W.Token n (operand expression) (W.Alike Expr.relocate) ∧
    W.Token n expression (W.Alike Expr.relocate) := by
  induction n with
  | zero => exact ⟨.zero, .zero⟩
  | succ n ih =>
    have hoperand := operand_succ chained_expression chained_expression ih.1 ih.2
    refine ⟨hoperand, ?_⟩
    rw [expression_eq]
    refine hoperand.bind_left fun first first' hfirst => ?_
    refine ((link hoperand).start W.amid_of_behind).many.bind fun links links' hlinks => .pure ?_
    rw [Alike, Expr.relocate_ofChain, Expr.relocate_ofChain, hfirst.eq, Alike.map hlinks]

theorem expression : W.Token n Grammar.expression (W.Alike Expr.relocate) := (operand_and_expression n).2

end Respacing

end Primer
