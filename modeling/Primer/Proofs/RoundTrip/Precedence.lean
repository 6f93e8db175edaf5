import Primer.Grammar.Program
import Primer.Proofs.Appending.Resuming
import Primer.Proofs.Grammar.Chain

/-!
Expressions read back whatever the weights of the operators are. The grammar is taken with any way to
make an expression of a chain (`expressionBy`), which may also refuse the chain: then the reading halts,
and nothing can make it go on. The text of an expression is read even if every chain of more than one
operator is refused. Where that reading succeeds, any other that treats the shorter chains as the grammar
does gives the same expression, at the same places. Main statement: `Expr.parse_canonical_weights`.
-/

namespace Primer

open Primer.Parser

namespace Grammar

/-- Gives the expression, or halts if there is none. -/
def accept : Option Expr → Parser Expr
  | some e => pure e
  | none => fun i => haltAt i (.expected "shorter chain of operators") i

variable (tree : Expr → List Link → Option Expr)

/-- Expressions whose chains are made into expressions by `tree`. -/
def expressionBy : Parser Expr :=
  fix fun expression => do
    let first ← operand expression
    let links ← many (link expression)
    accept (tree first links)

/-- An expression with nothing but space around it, whose chains are made into expressions by `tree`. -/
def wholeExpressionBy : Parser Expr := do
  let e ← spaced (expressionBy tree)
  atEnd
  return e

end Grammar

/-- Reads the text of a single expression whose chains are made into expressions by `tree`. -/
def Expr.parseBy (tree : Expr → List Link → Option Expr) (text : String) : Except ReadError Expr :=
  (Grammar.wholeExpressionBy tree).read text

/-- The expression of a chain of at most one operator. -/
def Expr.ofShortChain? (first : Expr) (links : List Link) : Option Expr :=
  if links.length ≤ 1 then some (Expr.ofChain first links) else none

/-- The expression of a chain under a table of weights. -/
def Expr.ofChainBy (weight : Operator → Nat) (first : Expr) (links : List Link) : Option Expr :=
  some (ChainTree.ofChain weight first links).toExpr

theorem Expr.parseBy_weight : Expr.parseBy (Expr.ofChainBy Operator.weight) = Expr.parse := by
  have htree : Expr.ofChainBy Operator.weight = fun first links => some (Expr.ofChain first links) := by
    funext first links
    rw [Expr.ofChainBy, ChainTree.toExpr_ofChain]
  rw [htree]
  rfl

/-! ## Ways to make an expression of a chain -/

/-- Chains of at most one operator are made into expressions as in the grammar, and legal operands into
legal expressions. -/
structure Expr.Treats (tree : Expr → List Link → Option Expr) : Prop where
  short : ∀ first links, links.length ≤ 1 → tree first links = some (Expr.ofChain first links)
  legal : ∀ first links, first.Legal → (∀ l ∈ links, l.operand.Legal) →
    ∀ e ∈ tree first links, e.Legal

theorem Expr.treats_ofShortChain? : Expr.Treats Expr.ofShortChain? where
  short _ _ hshort := if_pos hshort
  legal first links hfirst hlinks e he := by
    obtain ⟨-, htree⟩ := Option.ite_none_right_eq_some.1 he
    obtain rfl := Option.some.inj htree
    exact Expr.legal_ofChain hfirst hlinks

theorem Expr.treats_ofChainBy (weight : Operator → Nat) : Expr.Treats (Expr.ofChainBy weight) where
  short first links hshort := by
    rcases links with _ | ⟨l, _ | ⟨l', links⟩⟩
    · rfl
    · rfl
    · simp at hshort
  legal first links hfirst hlinks e he := by
    obtain rfl := Option.some.inj he
    exact ChainTree.legal_ofChain weight hfirst hlinks

namespace Grammar

variable {tree : Expr → List Link → Option Expr}

theorem gives_accept {o : Option Expr} {P : Expr → Prop} (h : ∀ e ∈ o, P e) : Gives (accept o) P := by
  cases o with
  | some e => exact .pure (h e rfl)
  | none =>
    intro i a j m hdone
    cases hdone

theorem gives_expressionBy (h : Expr.Treats tree) : Gives (expressionBy tree) Expr.Legal :=
  .fix fun _ hx => gives_chain hx fun first links hfirst hlinks =>
    gives_accept (h.legal first links hfirst hlinks)

theorem expressionBy_eq (h : Expr.Treats tree) : expressionBy tree = (do
    let first ← operand (expressionBy tree)
    let links ← many (link (expressionBy tree))
    accept (tree first links)) := by
  refine fix_eq (P := Expr.Legal) (fun x hx => ?_) fun _ _ _ hx hy h => near_chain _ hx hy h
  exact gives_chain hx fun first links hfirst hlinks => gives_accept (h.legal first links hfirst hlinks)

theorem chained_expressionBy (h : Expr.Treats tree) : Chained (expressionBy tree) where
  operand_eq := operand_eq (gives_expressionBy h)
  exists_tree := by
    refine ⟨fun first links => accept (tree first links), expressionBy_eq h, fun first links hshort => ?_⟩
    simp only [h.short first links hshort, accept]

end Grammar

/-! ## Readings that refuse longer chains -/

namespace Respacing

open Primer.Grammar

variable {tree : Expr → List Link → Option Expr} {n : Nat}

theorem operand_and_expressionBy (h : Expr.Treats tree) (n : Nat) :
    identity.Tokens n (operand (expressionBy tree)) (operand (expressionBy Expr.ofShortChain?))
        (identity.Alike Expr.relocate) ∧
      identity.Tokens n (expressionBy tree) (expressionBy Expr.ofShortChain?)
        (identity.Alike Expr.relocate) := by
  have hshort := Expr.treats_ofShortChain?
  induction n with
  | zero => exact ⟨.zero, .zero⟩
  | succ n ih =>
    have hoperand := operand_succ (chained_expressionBy h) (chained_expressionBy hshort) ih.1 ih.2
    refine ⟨hoperand, ?_⟩
    rw [expressionBy_eq h, expressionBy_eq hshort]
    refine hoperand.bind_left fun first first' hfirst => ?_
    refine (Respacing.link hoperand).many.bind fun links links' hlinks => ?_
    by_cases hlength : links'.length ≤ 1
    · rw [h.short first links (hlinks.length_eq ▸ hlength), hshort.short first' links' hlength]
      refine .pure ?_
      rw [Alike, Expr.relocate_ofChain, Expr.relocate_ofChain, hfirst.eq, Alike.map hlinks]
    · -- the chain is refused, so that only the other reading may go on
      rw [Expr.ofShortChain?, if_neg hlength]
      exact fun _ _ _ _ => .lost trivial

theorem wholeExpressionBy (h : Expr.Treats tree) :
    Parallel identity.toComparison n 1 Eq (Grammar.wholeExpressionBy tree)
      (Grammar.wholeExpressionBy Expr.ofShortChain?) Eq Eq := by
  refine (spaced (operand_and_expressionBy h n).2).bind_left fun e e' he => ?_
  have hend : Parallel identity.toComparison n 0 Eq Parser.atEnd Parser.atEnd Eq Eq :=
    .refl trivial fun i a j m hdone => Gives.bytes_le .atEnd hdone
  refine hend.bind fun _ _ _ => .pure ?_
  have hrelocate := he.eq
  rwa [identity, Expr.relocate_id, Expr.relocate_id] at hrelocate

end Respacing

theorem Expr.parseBy_of_short {tree : Expr → List Link → Option Expr} (h : Expr.Treats tree)
    {text : String} {e : Expr} (hread : Expr.parseBy Expr.ofShortChain? text = .ok e) :
    Expr.parseBy tree text = .ok e := by
  obtain ⟨j, m, hdone⟩ := Parser.read_eq_ok_iff.1 hread
  obtain ⟨a, i, m', ha, rfl, -⟩ :=
    (Respacing.wholeExpressionBy h).exists_done (Nat.lt_succ_self _) rfl hdone
  exact Parser.read_eq_ok_iff.2 ⟨i, m', ha⟩

/-! ## The text of an expression -/

/-- What is read as an expression up to the end of the text is the whole of it. -/
theorem Expr.parseBy_of_reads {tree : Expr → List Link → Option Expr} {text : String} {Q : Expr → Prop}
    (hstart : ExprStart text.toList) (h : (Grammar.expressionBy tree).Reads text.toList [] Q) :
    ∃ e, Expr.parseBy tree text = .ok e ∧ Q e := by
  have hsolid := hstart.solid []
  rw [List.append_nil] at hsolid
  exact Reads.exists_read (p := Grammar.wholeExpressionBy tree) (Grammar.reads_whole hsolid h)

/-- The text of a legal expression with finite reals, as a whole or as an operand, is read back as that
expression. On the way no chain of more than one operator is made into a tree, so that the weights of
the operators do not matter. -/
theorem Expr.parse_canonical_weights {e : Expr} (hlegal : e.Legal) (hfin : FiniteReals e.nodes) :
    ∀ text ∈ [Canonical.expr e, Canonical.operand e], ∃ e', Expr.parse text = .ok e' ∧
      e'.erase = e.erase ∧ Expr.parseBy Expr.ofShortChain? text = .ok e' ∧
      ∀ weight, Expr.parseBy (Expr.ofChainBy weight) text = .ok e' := by
  have hchained := Grammar.chained_expressionBy Expr.treats_ofShortChain?
  have h := Expr.rereadsBy hchained hlegal hfin
  have hwhole : ∃ e', Expr.parseBy Expr.ofShortChain? (Canonical.expr e) = .ok e' ∧
      e'.erase = e.erase := by
    refine Expr.parseBy_of_reads h.start ?_
    simpa using h.whole [] Grammar.ends_nil
  have hoperand : ∃ e', Expr.parseBy Expr.ofShortChain? (Canonical.operand e) = .ok e' ∧
      e'.erase = e.erase := by
    refine Expr.parseBy_of_reads h.operand_start ?_
    simpa using hchained.reads_of_operand (h.operand [] .nil) Grammar.ends_nil
  intro text htext
  have hread : ∃ e', Expr.parseBy Expr.ofShortChain? text = .ok e' ∧ e'.erase = e.erase := by
    rcases List.mem_pair.1 htext with rfl | rfl
    · exact hwhole
    · exact hoperand
  obtain ⟨e', hshort, herase⟩ := hread
  have hweight (weight : Operator → Nat) : Expr.parseBy (Expr.ofChainBy weight) text = .ok e' :=
    Expr.parseBy_of_short (Expr.treats_ofChainBy weight) hshort
  exact ⟨e', Expr.parseBy_weight ▸ hweight Operator.weight, herase, hshort, hweight⟩

/-- A product of two sums, the second of which is subtracted from a negation: a tree that its operators
would not give without parentheses. -/
def groupedExpr : Expr :=
  .binary default .multiply
    (.binary default .add (.path (.var ⟨default, "a"⟩)) (.literal (.string "\\n")))
    (.binary default .subtract (.not default (.literal (.natural 9223372036854775808)))
      (.binary default .or (.literal (.real ⟨true, 4602678819172646912⟩)) (.literal (.integer (-7)))))

theorem Expr.parse_canonical_weights_grouped : groupedExpr.Legal ∧ FiniteReals groupedExpr.nodes ∧
    ∀ text ∈ [Canonical.expr groupedExpr, Canonical.operand groupedExpr], ∃ e',
      Expr.parse text = .ok e' ∧ e'.erase = groupedExpr.erase ∧
      Expr.parseBy Expr.ofShortChain? text = .ok e' ∧
      ∀ weight, Expr.parseBy (Expr.ofChainBy weight) text = .ok e' := by
  have hname : LegalName "a" := legalName_of_letter rfl (by decide) (by decide)
  have hlegal : groupedExpr.Legal :=
    ⟨⟨hname, .escape (by decide) .nil⟩, ⟨by decide, by decide⟩, trivial, by decide, by decide⟩
  have hfin : FiniteReals groupedExpr.nodes := by
    intro x hx
    have hx : x = ⟨true, 4602678819172646912⟩ := by
      simpa [groupedExpr, Expr.nodes, Path.nodes] using hx
    rw [hx]
    decide
  exact ⟨hlegal, hfin, Expr.parse_canonical_weights hlegal hfin⟩

end Primer
