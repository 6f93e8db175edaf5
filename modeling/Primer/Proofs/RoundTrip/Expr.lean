import Primer.Proofs.Grammar.Expr
import Primer.Proofs.RoundTrip.Literal
import Primer.Proofs.Syntax.Nodes
import Primer.Proofs.Syntax.Relocation

/-!
Expressions read back as they are written. What follows an operand must not go on with a word, a call,
an index or a member (`Closed`), and what follows a whole expression must not go on with an operator
either (`Ends`). A path is read by its segments; the expressions in them read back by induction.
-/

namespace Primer

/-- No real among these expressions is infinite. -/
def FiniteReals (nodes : List Expr) : Prop :=
  ∀ x, .literal (.real x) ∈ nodes → x.isFinite = true

@[simp] theorem finiteReals_append {as bs : List Expr} :
    FiniteReals (as ++ bs) ↔ FiniteReals as ∧ FiniteReals bs := by
  simp only [FiniteReals, List.mem_append, or_imp, forall_and]

@[simp] theorem finiteReals_flatMap {l : List α} {f : α → List Expr} :
    FiniteReals (l.flatMap f) ↔ ∀ a ∈ l, FiniteReals (f a) := by
  simp only [FiniteReals, List.mem_flatMap]
  constructor
  · exact fun h a ha x hx => h x ⟨a, ha, hx⟩
  · rintro h x ⟨a, ha, hx⟩
    exact h a ha x hx

theorem finiteReals_nodesRun {e : Expr} : FiniteReals e.nodesRun ↔ FiniteReals e.nodes := by
  cases e <;> simp [Expr.nodesRun, Expr.nodes, FiniteReals]

theorem FiniteReals.mono {as bs : List Expr} (h : FiniteReals bs) (hsub : as ⊆ bs) :
    FiniteReals as := fun x hx => h x (hsub hx)

@[simp] theorem Canonical.exprs_eq_map (es : List Expr) :
    Canonical.exprs es = es.map Canonical.expr := by
  induction es with
  | nil => rfl
  | cons e es ih => rw [Canonical.exprs, ih, List.map_cons]

/-! ## What may follow -/

/-- No segment of a path goes on here. -/
def Whole (cs : List Char) : Prop := ∀ c ∈ cs.head?, isNameChar c = false ∧ c ∉ ['(', '[']

theorem Whole.apart {cs : List Char} (h : Whole cs) : Apart cs := fun c hc => (h c hc).1

theorem Whole.head?_ne {cs : List Char} (h : Whole cs) {c : Char} (hc : c ∈ ['(', '[']) :
    cs.head? ≠ some c := fun hd => (h c hd).2 hc

/-- No operand goes on here. -/
def Closed (cs : List Char) : Prop :=
  ∀ c ∈ cs.head?, isNameChar c = false ∧ c ∉ ['(', '[', '.']

theorem Closed.of_cons {c : Char} {cs : List Char} (hname : isNameChar c = false)
    (hc : c ∉ ['(', '[', '.']) : Closed (c :: cs) := by
  intro d hd
  cases hd
  exact ⟨hname, hc⟩

theorem Closed.nil : Closed [] := by
  intro c hc
  cases hc

theorem Closed.blank {cs : List Char} : Closed (' ' :: cs) := .of_cons (by decide) (by decide)

theorem Closed.newline {cs : List Char} : Closed ('\n' :: cs) := .of_cons (by decide) (by decide)

theorem Closed.whole {cs : List Char} (h : Closed cs) : Whole cs :=
  fun c hc => ⟨(h c hc).1, fun hmem => (h c hc).2 (List.mem_append_left ['.'] hmem)⟩

theorem Closed.apart {cs : List Char} (h : Closed cs) : Apart cs := h.whole.apart

theorem Closed.head?_ne {cs : List Char} (h : Closed cs) {c : Char} (hc : c ∈ ['(', '[', '.']) :
    cs.head? ≠ some c := fun hd => (h c hd).2 hc

/-- The characters that operators start with. -/
def operatorStarts : List Char := ['<', '>', '=', '!', '+', '-', '*', '/', '%', 'a', 'o']

theorem Operator.exists_start (o : Operator) :
    ∃ c ∈ operatorStarts, o.text.toList.head? = some c := by
  cases o <;> exact ⟨_, by decide, rfl⟩

/-- The operators that are tried before one are no beginnings of it. -/
theorem Operator.exists_split (o : Operator) : ∃ before after,
    Operator.all = before ++ o :: after ∧ ∀ q ∈ before, ¬ q.text.toList <+: o.text.toList := by
  refine ⟨Operator.all.takeWhile (· != o), (Operator.all.dropWhile (· != o)).tail, ?_, ?_⟩
  · cases o <;> rfl
  · cases o <;> decide

/-- No expression goes on here. -/
structure Ends (cs : List Char) : Prop where
  closed : Closed cs
  link : ∀ expression, (Grammar.link expression).Misses cs

/-- Whether an expression may start with the character. -/
def isExprStart (c : Char) : Bool := isNameChar c || ['"', '-', '('].contains c

namespace Grammar

open Primer.Parser

variable {cs rest : List Char}

/-! ## Operators -/

theorem misses_operatorSign {o : Operator} (h : ¬ o.text.toList <+: cs) :
    Misses (operatorSign o) cs := by
  cases o with
  | divide | and | or => exact .bind (.text h)
  | _ => exact .text h

theorem reads_operatorSign (o : Operator) :
    Reads (operatorSign o) (o.text.toList ++ ' ' :: rest) (' ' :: rest) fun _ => True := by
  cases o with
  | divide =>
    refine .bind (.text rfl) fun _ _ => .notFollowedBy (.satisfy ?_)
    intro c hc
    cases hc
    decide
  | and | or => exact reads_word rfl .blank
  | _ => exact .text rfl

theorem misses_operator (h : ∀ c ∈ cs.head?, c ∉ operatorStarts) : Misses operator cs := by
  refine .choice fun p hp => ?_
  obtain ⟨o, -, rfl⟩ := List.mem_map.1 hp
  obtain ⟨c, hc, hhead⟩ := Operator.exists_start o
  refine .bind (misses_operatorSign ?_)
  rintro ⟨tail, rfl⟩
  exact h c (by rw [List.head?_append, hhead]; rfl) hc

theorem prefix_of_prefix_blank {w t : List Char} (hw : ' ' ∉ w) (h : w <+: t ++ ' ' :: rest) :
    w <+: t := by
  rcases List.prefix_or_prefix_of_prefix h (List.prefix_append t (' ' :: rest)) with h' | ⟨u, rfl⟩
  · exact h'
  · rw [List.prefix_append_right_inj] at h
    cases u with
    | nil => simp
    | cons c u =>
      obtain ⟨rfl, -⟩ := List.cons_prefix_cons.1 h
      exact absurd (by simp) hw

theorem reads_operator (o : Operator) :
    Reads operator (o.text.toList ++ ' ' :: rest) (' ' :: rest) (· = o) := by
  obtain ⟨before, after, hall, hbefore⟩ := Operator.exists_split o
  rw [operator, hall, List.map_append, List.map_cons]
  refine .choice (fun p hp => ?_) (.bind (reads_operatorSign o) fun _ _ => .pure rfl)
  obtain ⟨q, hq, rfl⟩ := List.mem_map.1 hp
  refine .bind (misses_operatorSign fun hpre => hbefore q hq (prefix_of_prefix_blank ?_ hpre))
  cases q <;> decide

/-! ## What follows an expression -/

theorem ends_of_cons {c : Char} (hsolid : isSpace c = false) (hname : isNameChar c = false)
    (hc : c ∉ ['(', '[', '.'] ++ operatorStarts) : Ends (c :: cs) := by
  rw [List.mem_append, not_or] at hc
  refine ⟨.of_cons hname hc.1, fun _ => ?_⟩
  have hslash : c ≠ '/' := by
    rintro rfl
    exact hc.2 (by decide)
  refine .bind_of_reads (reads_space_nil (.of_cons hsolid hslash)) fun _ _ => ?_
  refine .bind_of_reads .here fun _ _ => .bind (misses_operator fun d hd => ?_)
  cases hd
  exact hc.2

theorem ends_nil : Ends [] := by
  refine ⟨.nil, fun _ => .bind_of_reads (reads_space_nil .nil) fun _ _ => ?_⟩
  exact .bind_of_reads .here fun _ _ => .bind (misses_operator (by simp))

theorem ends_newline : Ends ('\n' :: cs) := by
  refine ⟨.of_cons (by decide) (by decide), fun _ => ?_⟩
  refine .bind_of_reads reads_space_newline fun _ _ => ?_
  refine .bind_of_reads .here fun _ _ => .bind (misses_operator fun d hd => ?_)
  cases hd
  decide

/-- A word that starts no operator may follow after a blank. -/
theorem ends_blank {c : Char} (hsolid : isSpace c = false) (hc : c ∉ operatorStarts) :
    Ends (' ' :: c :: cs) := by
  refine ⟨.of_cons (by decide) (by decide), fun _ => ?_⟩
  have hslash : c ≠ '/' := by
    rintro rfl
    exact hc (by decide)
  refine .bind_of_reads (reads_space_blank (.of_cons hsolid hslash)) fun _ _ => ?_
  refine .bind_of_reads .here fun _ _ => .bind (misses_operator fun d hd => ?_)
  cases hd
  exact hc

/-! ## Starts of expressions -/

theorem isExprStart_ne {c d : Char} (h : isExprStart c = true) (hd : isExprStart d = false) :
    c ≠ d := by
  rintro rfl
  rw [h] at hd
  cases hd

theorem solid_of_isExprStart {c : Char} (h : isExprStart c = true) : Solid (c :: cs) := by
  refine .of_cons ?_ (isExprStart_ne h (by decide))
  simp only [isSpace, Bool.or_eq_false_iff, beq_eq_false_iff_ne]
  exact ⟨⟨⟨isExprStart_ne h (by decide), isExprStart_ne h (by decide)⟩,
    isExprStart_ne h (by decide)⟩, isExprStart_ne h (by decide)⟩

theorem isExprStart_of_isNameStart {c : Char} (h : isNameStart c = true) :
    isExprStart c = true := by
  rw [isExprStart, isNameChar_of_isNameStart h, Bool.true_or]

end Grammar

theorem Canonical.toList_binary (position : Position) (o : Operator) (left right : Expr) :
    (Canonical.expr (.binary position o left right)).toList = (Canonical.operand left).toList ++
      ' ' :: (o.text.toList ++ ' ' :: (Canonical.operand right).toList) := by
  simp [Canonical.expr, Canonical.operand]

theorem LegalName.solid {s : String} (h : LegalName s) (rest : List Char) :
    Solid (s.toList ++ rest) := by
  obtain ⟨c, tail, hs, hc, -⟩ := h.exists_cons
  rw [hs]
  exact Grammar.solid_of_isExprStart (Grammar.isExprStart_of_isNameStart hc)

/-- The text starts like an expression, and not with a keyword that opens or closes something else. -/
structure ExprStart (text : List Char) : Prop where
  head : ∃ c tail, text = c :: tail ∧ isExprStart c = true
  word : ∀ rest, Closed rest → ∀ w, isKeyword w = true →
    leadingWord (text ++ rest) = w.toList → w ∈ ["not", "true", "false"]

/-- The text of an expression starts as one, and it reads back as an operand and as a whole. -/
structure Expr.Rereads (e : Expr) (expression : Parser Expr := Grammar.expression) : Prop where
  start : ExprStart (Canonical.expr e).toList
  operand : ∀ rest, Closed rest → (Grammar.operand expression).Reads
    ((Canonical.operand e).toList ++ rest) rest (·.erase = e.erase)
  whole : ∀ rest, Ends rest → expression.Reads
    ((Canonical.expr e).toList ++ rest) rest (·.erase = e.erase)

/-- The parser reads operands with operators between them. Of one operand, or of two, it makes what they
stand for; how it takes apart a longer chain is left open. -/
structure Grammar.Chained (expression : Parser Expr) : Prop where
  operand_eq : operand expression =
    (negation (operand expression) <|> parenthesized expression <|> value expression)
  exists_tree : ∃ tree : Expr → List Link → Parser Expr,
    expression = (do
      let first ← operand expression
      let links ← Parser.many (link expression)
      tree first links) ∧
    ∀ first links, links.length ≤ 1 → tree first links = pure (Expr.ofChain first links)

theorem Grammar.chained_expression : Chained expression :=
  ⟨operand_expression_eq, _, expression_eq, fun _ _ _ => rfl⟩

variable {expression : Parser Expr}

theorem ExprStart.solid {text : List Char} (h : ExprStart text) (rest : List Char) :
    Solid (text ++ rest) := by
  obtain ⟨c, tail, rfl, hc⟩ := h.head
  exact Grammar.solid_of_isExprStart hc

/-- No word stands before a sign. -/
theorem ExprStart.of_sign {c : Char} {tail : List Char} (hc : isExprStart c = true)
    (hname : isNameChar c = false) : ExprStart (c :: tail) where
  head := ⟨c, tail, rfl, hc⟩
  word rest _ w hw heq := by
    obtain ⟨d, ds, hd, -⟩ := exists_cons_of_isKeyword hw
    rw [List.cons_append, leadingWord_cons hname, hd] at heq
    cases heq

theorem Expr.Rereads.operand_start {e : Expr} (h : e.Rereads expression) :
    ExprStart (Canonical.operand e).toList := by
  cases hleaf : e.isLeaf with
  | true =>
    rw [Canonical.operand, Expr.parenthesize, if_pos hleaf]
    exact h.start
  | false =>
    have htext : (Canonical.operand e).toList = '(' :: ((Canonical.expr e).toList ++ [')']) := by
      simp [Canonical.operand, Expr.parenthesize, hleaf]
    rw [htext]
    exact .of_sign (by decide) (by decide)

/-! ## Segments -/

namespace Segment

/-- The arguments in parentheses. -/
def argumentChars (args : List Expr) : List Char :=
  '(' :: ((", ".intercalate (Canonical.exprs args)).toList ++ [')'])

def indexChars (i : Expr) : List Char := '[' :: ((Canonical.expr i).toList ++ [']'])

/-- How a segment is written. -/
def chars (s : Segment) : List Char :=
  s.ident.name.toList ++ (s.args.elim [] argumentChars ++ s.indices.flatMap indexChars)

def erase (s : Segment) : Segment :=
  ⟨s.ident.erase, s.args.map (·.map Expr.erase), s.indices.map Expr.erase⟩

theorem erase_eq_relocate (s : Segment) : s.erase = s.relocate fun _ => default := by
  rw [erase, relocate, funext Expr.erase_eq_relocate]
  rfl

theorem erase_start (s : Segment) : s.start.erase = s.erase.start := by
  rw [Path.erase_eq_relocate, relocate_start, erase_eq_relocate]

theorem erase_foldl_extend (base : Path) (segments : List Segment) :
    (segments.foldl (fun p s => s.extend p) base).erase =
      (segments.map erase).foldl (fun p s => s.extend p) base.erase := by
  rw [Path.erase_eq_relocate, relocate_foldl_extend, Path.erase_eq_relocate, funext erase_eq_relocate]

/-- The name is legal and every expression in the segment reads back. -/
structure Rereads (s : Segment) (expression : Parser Expr := Grammar.expression) : Prop where
  name : LegalName s.ident.name
  args : ∀ args, s.args = some args → ∀ e ∈ args, e.Rereads expression
  indices : ∀ i ∈ s.indices, i.Rereads expression

end Segment

/-- The path is made of segments that read back. -/
def Path.Rereads (p : Path) (expression : Parser Expr := Grammar.expression) : Prop :=
  ∃ (first : Segment) (others : List Segment), p = others.foldl (fun p s => s.extend p) first.start ∧
    (Canonical.path p).toList = first.chars ++ others.flatMap (fun s => '.' :: s.chars) ∧
    ∀ s ∈ first :: others, s.Rereads expression

/-- A path starts with a name, and no word goes on after that. -/
theorem Path.Rereads.exists_name {p : Path} (h : p.Rereads expression) {rest : List Char}
    (hrest : Closed rest) :
    ∃ name tail, LegalName name ∧
      (Canonical.path p).toList ++ rest = name.toList ++ tail ∧ Apart tail := by
  obtain ⟨first, others, -, htext, hsegments⟩ := h
  refine ⟨first.ident.name, first.args.elim [] Segment.argumentChars ++
    first.indices.flatMap Segment.indexChars ++
    (others.flatMap (fun s => '.' :: s.chars) ++ rest), (hsegments first List.mem_cons_self).name, ?_, ?_⟩
  · rw [htext, Segment.chars, List.append_assoc, List.append_assoc]
  · obtain ⟨ident, args, indices⟩ := first
    cases args with
    | some args => exact .of_cons (by decide)
    | none =>
      cases indices with
      | cons i indices => exact .of_cons (by decide)
      | nil =>
        cases others with
        | cons s others => exact .of_cons (by decide)
        | nil => exact hrest.apart

namespace Grammar

open Primer.Parser

variable {cs rest : List Char}

theorem reads_callArguments {args : List Expr} (h : ∀ e ∈ args, e.Rereads expression) :
    Reads (callArguments expression) (Segment.argumentChars args ++ rest) rest
      (·.map Expr.erase = args.map Expr.erase) := by
  have htext : Segment.argumentChars args ++ rest =
      '(' :: (", ".toList.intercalate (args.map fun e => (Canonical.expr e).toList) ++
        ')' :: rest) := by
    simp [Segment.argumentChars, String.toList_intercalate]
    rfl
  have hlist : Reads _ _ (')' :: rest) _ := reads_listed (p := expression)
    (f := fun e => (Canonical.expr e).toList) (Q := fun e read => read.erase = e.erase)
    (l := args) ?_ ?_
  · rw [htext]
    refine .bind (.discard .char) fun _ _ => .bind hlist fun as has => ?_
    refine .bind (.discard (.expect (reads_afterSpace ?_ .char))) fun _ _ => .pure ?_
    · exact .of_cons (by decide) (by decide)
    · exact map_eq_map_of_forall₂ has
  · intro e he
    obtain ⟨c, tail, hstart, hc⟩ := (h e he).start.head
    exact ⟨c, tail, hstart, solid_of_isExprStart hc, isExprStart_ne hc (by decide)⟩
  · rintro e he c tail hc
    refine (h e he).whole _ ?_
    rcases hc with rfl | rfl
    · exact ends_of_cons (by decide) (by decide) (by decide)
    · exact ends_of_cons (by decide) (by decide) (by decide)

theorem reads_index {i : Expr} (h : i.Rereads expression) :
    Reads (index expression) (Segment.indexChars i ++ rest) rest (·.erase = i.erase) := by
  have htext : Segment.indexChars i ++ rest = '[' :: ((Canonical.expr i).toList ++ ']' :: rest) := by
    simp [Segment.indexChars]
  have hsolid := h.start.solid (']' :: rest)
  rw [htext]
  refine .bind (.discard .char) fun _ _ => .bind (.expect (reads_spaced hsolid ?_ (h.whole _ ?_))) ?_
  · exact .of_cons (by decide) (by decide)
  · exact ends_of_cons (by decide) (by decide) (by decide)
  · exact fun a ha => .bind (.discard (.expect .char)) fun _ _ => .pure ha

theorem apart_indices (indices : List Expr) (hrest : Whole rest) :
    (indices.flatMap Segment.indexChars ++ rest).head? ≠ some '(' ∧
      Apart (indices.flatMap Segment.indexChars ++ rest) := by
  cases indices with
  | nil => exact ⟨hrest.head?_ne (by decide), hrest.apart⟩
  | cons i indices => exact ⟨by simp [Segment.indexChars], .of_cons (by decide)⟩

theorem reads_segment {s : Segment} (h : s.Rereads expression) (hrest : Whole rest) :
    Reads (segment expression) (s.chars ++ rest) rest (·.erase = s.erase) := by
  obtain ⟨ident, args, indices⟩ := s
  obtain ⟨hname, hargs, hindices⟩ := h
  have hmany := Reads.many (p := index expression)
    (T := fun l => l.flatMap Segment.indexChars ++ rest)
    (Q := fun i read => read.erase = i.erase) (l := indices) ?_
    (.bind (.discard (.char (hrest.head?_ne (by decide)))))
  · obtain ⟨hparen, hapart⟩ := apart_indices indices hrest
    have hmaybe : Reads (maybe (callArguments expression))
        (args.elim [] Segment.argumentChars ++ (indices.flatMap Segment.indexChars ++ rest))
        (indices.flatMap Segment.indexChars ++ rest)
        (·.map (·.map Expr.erase) = args.map (·.map Expr.erase)) := by
      cases args with
      | none => exact (Reads.maybe_none (.bind (.discard (.char hparen)))).mono fun o ho => by rw [ho]
      | some args =>
        refine (Reads.maybe_some (reads_callArguments (hargs args rfl))).mono ?_
        rintro _ ⟨as, rfl, has⟩
        simp [has]
    have hword : Apart (args.elim [] Segment.argumentChars ++
        (indices.flatMap Segment.indexChars ++ rest)) := by
      cases args with
      | none => exact hapart
      | some args => exact .of_cons (by decide)
    simp only [Segment.chars, List.append_assoc]
    refine .bind (reads_ident hname hword) fun x hx => .bind hmaybe fun as has => ?_
    refine .bind hmany fun is his => .pure ?_
    simp only [Segment.erase, Segment.mk.injEq]
    exact ⟨Ident.erase_eq_iff.2 hx, has, map_eq_map_of_forall₂ his⟩
  · intro i after hsuffix
    rw [List.flatMap_cons, List.append_assoc]
    refine ⟨reads_index (hindices i (hsuffix.subset List.mem_cons_self)), ?_⟩
    exact byteCount_lt_of_append (by simp [Segment.indexChars]) _

theorem reads_path {p : Path} (h : p.Rereads expression) (hrest : Closed rest) :
    Reads (path expression) ((Canonical.path p).toList ++ rest) rest (·.erase = p.erase) := by
  obtain ⟨first, others, rfl, htext, hsegments⟩ := h
  rw [htext, List.append_assoc]
  let T (l : List Segment) : List Char := l.flatMap (fun s => '.' :: s.chars) ++ rest
  have hT (l : List Segment) : Whole (T l) := by
    cases l with
    | nil => exact hrest.whole
    | cons s l =>
      intro c hc
      cases hc
      decide
  have hmany := Reads.many (p := do discard (char '.'); expect "member name after '.'" (segment expression))
    (T := T) (Q := fun s read => read.erase = s.erase) (l := others) ?_
    (.bind (.discard (.char (hrest.head?_ne (by decide)))))
  · refine .bind (reads_segment (hsegments first List.mem_cons_self) (hT others)) fun s hs => ?_
    refine .bind hmany fun ss hss => .pure ?_
    rw [Segment.erase_foldl_extend, Segment.erase_foldl_extend, Segment.erase_start,
      Segment.erase_start, hs, map_eq_map_of_forall₂ hss]
  · intro s after hsuffix
    have hs := hsegments s (List.mem_cons_of_mem first (hsuffix.subset List.mem_cons_self))
    have hcons : T (s :: after) = '.' :: (s.chars ++ T after) := by simp [T]
    rw [hcons]
    refine ⟨.bind (.discard .char) fun _ _ => .expect (reads_segment hs (hT after)), ?_⟩
    exact byteCount_lt_of_append (by simp : '.' :: s.chars ≠ []) (T after)

/-! ## Operands -/

theorem misses_parenthesized (h : cs.head? ≠ some '(') : Misses (parenthesized expression) cs :=
  .bind (.discard (.char h))

theorem misses_negation_of_word {w : String} (hw : w ≠ "not")
    (h : leadingWord cs = w.toList) : Misses (negation (operand expression)) cs := by
  refine .bind_of_reads .here fun _ _ => .bind (misses_word ?_ (by decide))
  rw [h]
  exact fun heq => hw (String.toList_inj.1 heq)

theorem misses_negation_of_head (h : cs.head? ≠ some 'n') :
    Misses (negation (operand expression)) cs := by
  refine .bind_of_reads .here fun _ _ => .bind (misses_word_of_head (c := 'n') rfl h)

/-- A path is an operand, as its name is no keyword. -/
theorem Chained.reads_operand_of_path (hx : Chained expression) {name : String} {tail : List Char}
    {Q : Path → Prop} (hname : LegalName name) (htail : Apart tail)
    (h : Reads (path expression) (name.toList ++ tail) rest Q) :
    Reads (operand expression) (name.toList ++ tail) rest fun e => ∃ p, Q p ∧ e = .path p := by
  have hword := hname.leadingWord_eq htail
  obtain ⟨c, cs, hcons, hc, -⟩ := hname.exists_cons
  have hne {w : String} (hw : isKeyword w = true) : name ≠ w := by
    rintro rfl
    rw [hname.notKeyword] at hw
    cases hw
  rw [hx.operand_eq]
  refine (misses_negation_of_word (hne (by decide)) hword).orElse_reads ?_
  rw [hcons, List.cons_append] at h hword ⊢
  refine (misses_parenthesized ?_).orElse_reads ?_
  · intro hd
    cases hd
    exact absurd hc (by decide)
  refine Misses.orElse_reads (.bind ?_) (.bind h fun q hq => .pure ⟨q, hq, rfl⟩)
  rw [← hcons] at hword
  exact misses_literal_of_word hc hword (hne (by decide)) (hne (by decide))

theorem Chained.reads_operand_path (hx : Chained expression) {p : Path} (h : p.Rereads expression)
    (hrest : Closed rest) :
    Reads (operand expression) ((Canonical.path p).toList ++ rest) rest
      (·.erase = (Expr.path p).erase) := by
  obtain ⟨name, tail, hname, htext, htail⟩ := h.exists_name hrest
  have hread := reads_path h hrest
  rw [htext] at hread ⊢
  refine (hx.reads_operand_of_path hname htail hread).mono ?_
  rintro _ ⟨q, hq, rfl⟩
  rw [Expr.erase, Expr.erase, hq]

theorem Chained.reads_operand_of_literal (hx : Chained expression) {Q : Literal → Prop}
    (h : Reads literal cs rest Q) (hnot : cs.head? ≠ some 'n') (hparen : cs.head? ≠ some '(') :
    Reads (operand expression) cs rest fun e => ∃ v, Q v ∧ e = .literal v := by
  rw [hx.operand_eq]
  refine (misses_negation_of_head hnot).orElse_reads ((misses_parenthesized hparen).orElse_reads ?_)
  exact .orElse (.bind h fun v hv => .pure ⟨v, hv, rfl⟩)

theorem Chained.reads_operand_literal (hx : Chained expression) {v : Literal} (hv : v.Legal)
    (hfin : ∀ x, v = .real x → x.isFinite = true) (hrest : Closed rest) :
    Reads (operand expression) ((Canonical.literal v).toList ++ rest) rest
      (·.erase = (Expr.literal v).erase) := by
  obtain ⟨c, tail, hcons, hc⟩ := Literal.exists_head hfin
  have hhead {d : Char} (hd : ¬ (d.isDigit = true ∨ d ∈ ['-', '"', 't', 'f'])) :
      ((Canonical.literal v).toList ++ rest).head? ≠ some d := by
    rw [hcons]
    rintro ⟨⟩
    exact hd hc
  have hread := reads_literal hv hfin hrest.apart (hrest.head?_ne (by decide))
  refine (hx.reads_operand_of_literal hread (hhead (by decide)) (hhead (by decide))).mono ?_
  rintro _ ⟨w, rfl, rfl⟩
  rfl

/-! ## Whole expressions -/

theorem Chained.reads_of_operand (hx : Chained expression) {Q : Expr → Prop}
    (h : Reads (operand expression) cs rest Q) (hrest : Ends rest) : Reads expression cs rest Q := by
  obtain ⟨tree, hexpression, htree⟩ := hx.exists_tree
  rw [hexpression]
  refine .bind h fun first hfirst => .bind (.many_nil (hrest.link expression)) ?_
  rintro _ rfl
  rw [htree first [] (Nat.zero_le 1)]
  exact .pure hfirst

theorem Chained.reads_parenthesized (hx : Chained expression) {e : Expr}
    (hstart : ExprStart (Canonical.expr e).toList)
    (h : ∀ rest, Ends rest →
      Reads expression ((Canonical.expr e).toList ++ rest) rest (·.erase = e.erase)) :
    Reads (operand expression) ('(' :: ((Canonical.expr e).toList ++ ')' :: rest)) rest
      (·.erase = e.erase) := by
  have hsolid := hstart.solid (')' :: rest)
  have hends : Ends (')' :: rest) := ends_of_cons (by decide) (by decide) (by decide)
  rw [hx.operand_eq]
  refine (misses_negation_of_head (by simp)).orElse_reads (.orElse ?_)
  refine .bind (.discard .char) fun _ _ => ?_
  refine .bind (.expect (reads_spaced hsolid (.of_cons (by decide) (by decide)) (h _ hends))) ?_
  exact fun a ha => .bind (.discard (.expect .char)) fun _ _ => .pure ha

/-- The blank before an operator. A division sign is no comment, as a blank follows it. -/
theorem reads_space_operator (o : Operator) :
    Reads space (' ' :: (o.text.toList ++ ' ' :: rest)) (o.text.toList ++ ' ' :: rest)
      fun _ => True := by
  refine reads_run [' '] (by simp [isInlineSpace]) ?_ (.bind (.text fun hpre => ?_))
  · cases o <;> rintro c ⟨⟩ <;> decide
  · have hcomment := prefix_of_prefix_blank (by decide) hpre
    revert hcomment
    cases o <;> decide

section
variable {text : List Char} {P Q : Expr → Prop} (hsolid : Solid (text ++ rest))
variable (h : Reads (operand expression) (text ++ rest) rest Q)
include hsolid h

theorem Chained.reads_not (hx : Chained expression) :
    Reads (operand expression) ("not".toList ++ ' ' :: (text ++ rest)) rest
      fun e => ∃ a, Q a ∧ e = .not ⟨byteCount ("not".toList ++ ' ' :: (text ++ rest))⟩ a := by
  rw [hx.operand_eq]
  refine .orElse (.bind .here fun start hstart => .bind (reads_word rfl .blank) fun _ _ => ?_)
  refine .bind (.expect (reads_afterSpace_blank hsolid h)) fun a ha => .pure ⟨a, ha, ?_⟩
  rw [hstart]
  rfl

theorem reads_link (o : Operator) :
    Reads (link expression) (' ' :: (o.text.toList ++ ' ' :: (text ++ rest))) rest
      fun l => ∃ b, Q b ∧ l = ⟨⟨byteCount (o.text.toList ++ ' ' :: (text ++ rest))⟩, o, b⟩ := by
  refine .bind (reads_space_operator o) fun _ _ => .bind .here fun start hstart => ?_
  refine .bind (reads_operator o) fun q hq => ?_
  refine .bind (.expect (reads_afterSpace_blank hsolid h)) fun b hb => .pure ⟨b, hb, ?_⟩
  rw [hstart, hq]
  rfl

/-- Two operands with an operator between them. -/
theorem Chained.reads_binary (hx : Chained expression) {o : Operator}
    (hleft : Reads (operand expression) cs (' ' :: (o.text.toList ++ ' ' :: (text ++ rest))) P)
    (hrest : Ends rest) :
    Reads expression cs rest fun e => ∃ a b, P a ∧ Q b ∧
      e = .binary ⟨byteCount (o.text.toList ++ ' ' :: (text ++ rest))⟩ o a b := by
  obtain ⟨tree, hexpression, htree⟩ := hx.exists_tree
  rw [hexpression]
  refine .bind hleft fun a ha => ?_
  refine .bind (.many_one (reads_link hsolid h o) ?_ (hrest.link expression)) ?_
  · simpa using byteCount_lt_of_append (List.cons_ne_nil ' ' (o.text.toList ++ ' ' :: text)) rest
  · rintro _ ⟨_, rfl, b, hb, rfl⟩
    rw [htree a [_] (Nat.le_refl 1)]
    exact .pure ⟨a, b, ha, hb, rfl⟩

end

end Grammar

namespace Expr

/-- A single value reads back if it does as an operand. -/
theorem Rereads.of_leaf (hx : Grammar.Chained expression) {e : Expr} (hleaf : e.isLeaf = true)
    (hstart : ExprStart (Canonical.expr e).toList)
    (h : ∀ rest, Closed rest → (Grammar.operand expression).Reads
      ((Canonical.expr e).toList ++ rest) rest (·.erase = e.erase)) : e.Rereads expression where
  start := hstart
  operand rest hrest := by
    rw [Canonical.operand, parenthesize, if_pos hleaf]
    exact h rest hrest
  whole rest hrest := hx.reads_of_operand (h rest hrest.closed) hrest

/-- Any other expression reads back as an operand in parentheses. -/
theorem Rereads.of_whole (hx : Grammar.Chained expression) {e : Expr} (hleaf : e.isLeaf = false)
    (hstart : ExprStart (Canonical.expr e).toList)
    (h : ∀ rest, Ends rest → expression.Reads
      ((Canonical.expr e).toList ++ rest) rest (·.erase = e.erase)) : e.Rereads expression where
  start := hstart
  operand rest hrest := by
    have hoperand : (Canonical.operand e).toList ++ rest =
        '(' :: ((Canonical.expr e).toList ++ ')' :: rest) := by
      simp [Canonical.operand, parenthesize, hleaf]
    rw [hoperand]
    exact hx.reads_parenthesized hstart h
  whole := h

theorem exprStart_literal {v : Literal} (hfin : ∀ x, v = .real x → x.isFinite = true) :
    ExprStart (Canonical.literal v).toList := by
  have hnumber {cs : List Char}
      (h : ∃ c tail, cs = c :: tail ∧ (c.isDigit = true ∨ c = '-')) : ExprStart cs := by
    obtain ⟨c, tail, rfl, hc | rfl⟩ := h
    · have hname : isNameChar c = true := by
        rw [isNameChar, Char.isAlphanum, hc, Bool.or_true, Bool.true_or]
      refine ⟨⟨c, tail, rfl, by rw [isExprStart, hname, Bool.true_or]⟩, fun rest _ w hw heq => ?_⟩
      -- the word would start with a digit
      obtain ⟨d, ds, hd, hstart, -⟩ := exists_cons_of_isKeyword hw
      rw [List.cons_append, leadingWord, List.takeWhile_cons_of_pos hname, hd] at heq
      cases heq
      rw [isDigit_eq_false_of_isNameStart hstart] at hc
      cases hc
    · exact .of_sign (by decide) (by decide)
  cases v with
  | string text =>
    have htext : (Canonical.literal (.string text)).toList = '"' :: (text.toList ++ ['"']) := by
      simp [Canonical.literal]
    rw [htext]
    exact .of_sign (by decide) (by decide)
  | real x => exact hnumber (exists_head_real (hfin x rfl))
  | integer z => exact hnumber (exists_head_int z)
  | natural n => exact hnumber (exists_head_int n)
  | boolean b =>
    have hword : isWord (toString b) = true := by cases b <;> decide
    refine ⟨by cases b <;> exact ⟨_, _, rfl, by decide⟩, fun rest hrest w _ heq => ?_⟩
    rw [Canonical.literal, leadingWord_append hword hrest.apart] at heq
    rw [← String.toList_inj.1 heq]
    cases b <;> decide

theorem rereads_literal (hx : Grammar.Chained expression) {v : Literal} (hv : v.Legal)
    (hfin : ∀ x, v = .real x → x.isFinite = true) : (literal v).Rereads expression :=
  .of_leaf hx rfl (exprStart_literal hfin) fun _ hrest => hx.reads_operand_literal hv hfin hrest

theorem exprStart_path {p : Path} (h : p.Rereads expression) :
    ExprStart (Canonical.path p).toList where
  head := by
    obtain ⟨name, tail, hname, htext, -⟩ := h.exists_name Closed.nil
    obtain ⟨c, cs, hcons, hc, -⟩ := hname.exists_cons
    rw [List.append_nil, hcons] at htext
    exact ⟨c, _, htext, Grammar.isExprStart_of_isNameStart hc⟩
  word rest hrest w hw heq := by
    obtain ⟨name, tail, hname, htext, htail⟩ := h.exists_name hrest
    rw [htext, hname.leadingWord_eq htail] at heq
    rw [← String.toList_inj.1 heq, hname.notKeyword] at hw
    cases hw

theorem rereads_path (hx : Grammar.Chained expression) {p : Path} (h : p.Rereads expression) :
    (path p).Rereads expression :=
  .of_leaf hx rfl (exprStart_path h) fun _ hrest => hx.reads_operand_path h hrest

theorem rereads_not (hx : Grammar.Chained expression) {e : Expr} (h : e.Rereads expression)
    (position : Position) : (not position e).Rereads expression := by
  have htext (rest : List Char) : (Canonical.expr (not position e)).toList ++ rest =
      "not".toList ++ ' ' :: ((Canonical.operand e).toList ++ rest) := by
    simp [Canonical.expr, Canonical.operand]
  have hstart : ExprStart (Canonical.expr (not position e)).toList := by
    refine ⟨⟨'n', _, by rw [← List.append_nil (Canonical.expr _).toList, htext]; rfl, by decide⟩, ?_⟩
    intro rest _ w _ heq
    rw [htext, leadingWord_append (by decide) Apart.blank] at heq
    rw [← String.toList_inj.1 heq]
    decide
  refine .of_whole hx rfl hstart fun rest hrest => hx.reads_of_operand ?_ hrest
  rw [htext]
  refine (hx.reads_not (h.operand_start.solid rest) (h.operand rest hrest.closed)).mono ?_
  rintro _ ⟨a, ha, rfl⟩
  rw [Expr.erase, Expr.erase, ha]

theorem rereads_binary (hx : Grammar.Chained expression) {left right : Expr}
    (hl : left.Rereads expression) (hr : right.Rereads expression) (position : Position)
    (o : Operator) : (binary position o left right).Rereads expression := by
  have htext := Canonical.toList_binary position o left right
  refine .of_whole hx rfl ?_ fun rest hrest => ?_
  · obtain ⟨c, tail, hleft, hc⟩ := hl.operand_start.head
    refine ⟨⟨c, _, by rw [htext, hleft, List.cons_append], hc⟩, fun rest _ w hw heq => ?_⟩
    rw [htext, List.append_assoc] at heq
    exact hl.operand_start.word _ .blank w hw heq
  · rw [htext]
    simp only [List.append_assoc, List.cons_append]
    refine (hx.reads_binary (hr.operand_start.solid rest) (hr.operand rest hrest.closed)
      (hl.operand _ .blank) hrest).mono ?_
    rintro _ ⟨a, b, ha, hb, rfl⟩
    rw [Expr.erase, Expr.erase, ha, hb]

end Expr

/-! ## Paths -/

namespace Segment

theorem start_addIndex (s : Segment) (i : Expr) : (s.addIndex i).start = .index s.start i := by
  rw [start, start, addIndex, List.foldl_append]
  rfl

theorem extend_addIndex (s : Segment) (i : Expr) (base : Path) :
    (s.addIndex i).extend base = .index (s.extend base) i := by
  rw [extend, extend, addIndex, List.foldl_append]
  rfl

theorem chars_addIndex (s : Segment) (i : Expr) :
    (s.addIndex i).chars = s.chars ++ indexChars i := by
  simp [chars, addIndex]

theorem Rereads.addIndex {s : Segment} (h : s.Rereads expression) {i : Expr}
    (hi : i.Rereads expression) : (s.addIndex i).Rereads expression where
  name := h.name
  args := h.args
  indices e he := by
    rcases List.mem_append.1 he with he | he
    · exact h.indices e he
    · exact List.mem_singleton.1 he ▸ hi

theorem rereads_var {x : Ident} (h : LegalName x.name) : Rereads ⟨x, none, []⟩ expression where
  name := h
  args _ hargs := nomatch hargs
  indices _ hi := nomatch hi

theorem rereads_call {x : Ident} (h : LegalName x.name) {args : List Expr}
    (hargs : ∀ e ∈ args, e.Rereads expression) : Rereads ⟨x, some args, []⟩ expression where
  name := h
  args as has := by cases has; exact hargs
  indices _ hi := nomatch hi

end Segment

namespace Path

/-- A path that goes on with one more segment. -/
theorem Rereads.extend {p : Path} (h : p.Rereads expression) {s : Segment}
    (hs : s.Rereads expression)
    (htext : (Canonical.path (s.extend p)).toList = (Canonical.path p).toList ++ '.' :: s.chars) :
    (s.extend p).Rereads expression := by
  obtain ⟨first, others, rfl, hp, hsegments⟩ := h
  refine ⟨first, others ++ [s], by rw [List.foldl_append]; rfl, ?_, ?_⟩
  · rw [htext, hp]
    simp
  · intro t ht
    rw [← List.cons_append, List.mem_append, List.mem_singleton] at ht
    rcases ht with ht | rfl
    · exact hsegments t ht
    · exact hs

theorem Rereads.index {p : Path} (h : p.Rereads expression) {i : Expr}
    (hi : i.Rereads expression) : (Path.index p i).Rereads expression := by
  obtain ⟨first, others, rfl, hp, hsegments⟩ := h
  have htext (p : Path) :
      (Canonical.path (.index p i)).toList = (Canonical.path p).toList ++ Segment.indexChars i := by
    simp [Canonical.path, Segment.indexChars]
  -- the index belongs to the last segment
  rcases List.eq_nil_or_concat' others with rfl | ⟨others, last, rfl⟩
  · refine ⟨first.addIndex i, [], (first.start_addIndex i).symm, ?_, ?_⟩
    · rw [htext, hp, Segment.chars_addIndex]
      simp
    · intro s hs
      rw [List.mem_singleton.1 hs]
      exact (hsegments first List.mem_cons_self).addIndex hi
  · refine ⟨first, others ++ [last.addIndex i], ?_, ?_, ?_⟩
    · rw [List.foldl_append, List.foldl_append]
      exact (last.extend_addIndex i _).symm
    · rw [htext, hp]
      simp [Segment.chars_addIndex]
    · intro s hs
      rw [← List.cons_append, List.mem_append, List.mem_singleton] at hs
      rcases hs with hs | rfl
      · exact hsegments s (by rw [← List.cons_append]; exact List.mem_append_left [last] hs)
      · exact (hsegments last (by simp)).addIndex hi

end Path

mutual
theorem Expr.rereadsBy (hx : Grammar.Chained expression) :
    ∀ {e : Expr}, e.Legal → FiniteReals e.nodes → e.Rereads expression
  | .literal v, hlegal, hfin =>
    Expr.rereads_literal hx hlegal fun x hx => hfin x (by rw [hx]; exact Expr.mem_nodes_self _)
  | .path p, hlegal, hfin =>
    Expr.rereads_path hx (Path.rereadsBy hx hlegal (hfin.mono (List.subset_cons_self _ _)))
  | .not position e, hlegal, hfin =>
    Expr.rereads_not hx (Expr.rereadsBy hx (e := e) hlegal (hfin.mono (List.subset_cons_self _ _)))
      position
  | .binary position o left right, hlegal, hfin => by
    obtain ⟨hleft, hright⟩ := finiteReals_append.1 (hfin.mono (List.subset_cons_self _ _))
    exact Expr.rereads_binary hx (Expr.rereadsBy hx hlegal.1 hleft)
      (Expr.rereadsBy hx hlegal.2 hright) position o

theorem Path.rereadsBy (hx : Grammar.Chained expression) :
    ∀ {p : Path}, p.Legal → FiniteReals p.nodes → p.Rereads expression
  | .var x, hlegal, _ => by
    refine ⟨⟨x, none, []⟩, [], rfl, by simp [Canonical.path, Segment.chars], fun s hs => ?_⟩
    rw [List.mem_singleton.1 hs]
    exact Segment.rereads_var hlegal
  | .call f args, hlegal, hfin => by
    refine ⟨⟨f, some args, []⟩, [], rfl, ?_, fun s hs => ?_⟩
    · simp [Canonical.path, Segment.chars, Segment.argumentChars]
    · rw [List.mem_singleton.1 hs]
      exact Segment.rereads_call hlegal.1 (Expr.rereadsAllBy hx hlegal.2 hfin)
  | .index base i, hlegal, hfin => by
    obtain ⟨hbase, hi⟩ := finiteReals_append.1 hfin
    exact (Path.rereadsBy hx hlegal.1 hbase).index (Expr.rereadsBy hx hlegal.2 hi)
  | .member base x, hlegal, hfin => by
    refine (Path.rereadsBy hx hlegal.1 hfin).extend (Segment.rereads_var hlegal.2) ?_
    simp [Segment.extend, Canonical.path, Segment.chars]
  | .method base m args, hlegal, hfin => by
    obtain ⟨hbase, hargs⟩ := finiteReals_append.1 hfin
    refine (Path.rereadsBy hx hlegal.1 hbase).extend
      (Segment.rereads_call hlegal.2.1 (Expr.rereadsAllBy hx hlegal.2.2 hargs)) ?_
    simp [Segment.extend, Canonical.path, Segment.chars, Segment.argumentChars]

theorem Expr.rereadsAllBy (hx : Grammar.Chained expression) :
    ∀ {es : List Expr}, Expr.LegalAll es → FiniteReals (Expr.nodesAll es) →
      ∀ e ∈ es, e.Rereads expression
  | [], _, _ => fun _ he => nomatch he
  | e :: es, hlegal, hfin => by
    obtain ⟨he, hes⟩ := finiteReals_append.1 hfin
    exact List.forall_mem_cons.2 ⟨Expr.rereadsBy hx hlegal.1 he, Expr.rereadsAllBy hx hlegal.2 hes⟩
end

theorem Expr.rereads {e : Expr} (hlegal : e.Legal) (hfin : FiniteReals e.nodes) : e.Rereads :=
  Expr.rereadsBy Grammar.chained_expression hlegal hfin

theorem Path.rereads {p : Path} (hlegal : p.Legal) (hfin : FiniteReals p.nodes) : p.Rereads :=
  Path.rereadsBy Grammar.chained_expression hlegal hfin

end Primer
