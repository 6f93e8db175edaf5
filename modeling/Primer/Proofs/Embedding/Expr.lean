import Primer.Proofs.Embedding.Text
import Primer.Proofs.Respacing.Progress

/-!
An expression in a text with more behind it and in the text alone. The two are read alike, with one
exception: where the text alone ends with an opening parenthesis behind a name, the arguments of the call
are missing there, so that only the name is read, up to the parenthesis; but they may follow in the other
text. Such a place is `Stuck`, as nothing reads on from an opening parenthesis behind an expression.
-/

namespace Primer

open Primer.Parser Primer.Grammar

theorem Parser.Unless.sepBy1 {w : Comparison} {D : Cursor → Prop} {n k : Nat}
    {A B : Cursor → Cursor → Prop} {p : Parser α} {q : Parser β} {R : α → β → Prop}
    {separator : Parser γ} {separator' : Parser δ} {S : γ → δ → Prop} (h : Unless w D n k A p q R B)
    (hsep : Parallel w n 1 B separator separator' S A)
    (hend : ∀ k, D k → Misses separator' k.chars) :
    Unless w D n k A (sepBy1 p separator) (sepBy1 q separator') (List.Forall₂ R) B := by
  refine h.bind (fun a b hab => ?_) fun b k hk => ?_
  · refine (Unless.many (.after_left hsep fun _ _ _ => h.less) (fun _ _ hij => .inl hij) ?_).bind_pure ?_
    · exact fun k hk => .bind (hend k hk)
    · exact fun as bs has => .cons hab has
  · exact .of_reads hk (Q := fun _ => True)
      (.bind (.many_nil (.bind (hend k hk))) fun _ _ => .pure trivial)

namespace Grammar

/-- No expression starts here. -/
def NoExpr (cs : List Char) : Prop := ∀ c ∈ cs.head?, isTokenChar c = false ∧ c ≠ '"' ∧ c ≠ '('

namespace NoExpr

variable {cs : List Char}

theorem nil : NoExpr [] := by
  intro c hc
  cases hc

theorem head?_ne (h : NoExpr cs) {c : Char} (hc : isTokenChar c = true ∨ c = '"' ∨ c = '(') :
    cs.head? ≠ some c := by
  intro hhead
  obtain ⟨htoken, hquote, hparen⟩ := h c hhead
  rcases hc with hc | hc | hc
  · rw [htoken] at hc
    cases hc
  · exact hquote hc
  · exact hparen hc

theorem head_eq_false (h : NoExpr cs) {t : Char → Bool} (ht : ∀ c, t c = true → isTokenChar c = true) :
    ∀ c ∈ cs.head?, t c = false := by
  intro c hc
  refine Bool.eq_false_iff.2 fun htc => ?_
  exact absurd (ht c htc) (by simp [(h c hc).1])

theorem misses_literal (h : NoExpr cs) : Misses literal cs := by
  have hsign : Reads sign cs cs fun _ => True := by
    refine .bind (.maybe_none (.satisfy ?_)) fun _ _ => .pure trivial
    exact h.head_eq_false fun _ => isTokenChar_of_sign
  have hdigits : Misses digits cs := .takeWhile1 (h.head_eq_false fun _ => isTokenChar_of_isDigit)
  refine .orElse ?_ (.orElse ?_ (.orElse ?_ (.orElse ?_ ?_)))
  · exact .bind (.discard (.char (h.head?_ne (.inr (.inl rfl)))))
  · exact .bind_of_reads hsign fun _ _ => .bind hdigits
  · exact .bind_of_reads .here fun _ _ => .bind_of_reads hsign fun _ _ => .bind hdigits
  · exact .bind (misses_word_of_head (c := 't') rfl (h.head?_ne (by decide)))
  · exact .bind (misses_word_of_head (c := 'f') rfl (h.head?_ne (by decide)))

theorem misses_expression (h : NoExpr cs) : Misses expression cs := by
  rw [expression_eq, operand_expression_eq]
  refine .bind (.orElse ?_ (.orElse ?_ (.orElse (.bind h.misses_literal) (.bind (.bind (.bind ?_))))))
  · exact misses_negation_of_head (h.head?_ne (by decide))
  · exact misses_parenthesized (h.head?_ne (by decide))
  · refine misses_ident_of_head (h.head_eq_false fun c hc => ?_)
    exact isTokenChar_of_isNameChar (isNameChar_of_isNameStart hc)

end NoExpr

end Grammar

namespace Embedding

/-- The reading of the text alone may break off where the other goes on. -/
def comparison : Comparison where
  Place _ _ := True
  Lost := True

/-- Places in code, in a text with `d` behind it and in the text alone. -/
abbrev At (d : List Char) (e : Region) (i j : Cursor) : Prop := Followed d e .code i.chars j.chars

/-- An opening parenthesis follows. -/
def Stuck (j : Cursor) : Prop := j.chars.head? = some '('

/-- Equal but for the places. -/
def Same (relocate : (Position → Position) → α → α) (a b : α) : Prop :=
  relocate (fun _ => default) a = relocate (fun _ => default) b

theorem Same.eq {relocate : (Position → Position) → α → α} {a b : α} (h : Same relocate a b) :
    relocate (fun _ => default) a = relocate (fun _ => default) b := h

theorem Same.map {relocate : (Position → Position) → α → α} {as bs : List α}
    (h : List.Forall₂ (Same relocate) as bs) :
    as.map (relocate fun _ => default) = bs.map (relocate fun _ => default) :=
  (map_eq_map_of_forall₂ (h.imp fun _ _ hab => hab.eq.symm)).symm

/-- The parser answers alike wherever a token may start, and reads up to the end of one, or up to an
opening parenthesis. -/
abbrev Within (d : List Char) (e : Region) (n : Nat) (p : Parser α) (R : α → α → Prop) : Prop :=
  Unless comparison Stuck n 1 (At d e) p p R (At d e)

/-! ## Before an opening parenthesis -/

section
variable {k : Cursor}

theorem Stuck.reads_space (h : Stuck k) : Reads space k.chars k.chars fun _ => True := by
  obtain ⟨cs, hk⟩ := List.head?_eq_some_iff.1 h
  rw [hk]
  exact reads_space_nil (.of_cons (by decide) (by decide))

theorem Stuck.misses_char {c : Char} (h : Stuck k) (hc : c ≠ '(') : Misses (char c) k.chars := by
  refine .char ?_
  rw [h]
  exact fun heq => hc (Option.some.inj heq).symm

theorem Stuck.misses_index {x : Parser Expr} (h : Stuck k) : Misses (index x) k.chars :=
  .bind (.discard (h.misses_char (by decide)))

theorem Stuck.misses_link {x : Parser Expr} (h : Stuck k) : Misses (link x) k.chars := by
  refine .bind_of_reads h.reads_space fun _ _ => .bind_of_reads .here fun _ _ => ?_
  refine .bind (misses_operator fun c hc => ?_)
  obtain rfl := Option.mem_unique hc h
  decide

end

/-! ## Before the end of the text alone -/

section
variable {d : List Char} {e : Region} {n : Nat} {p : Parser α} {R : α → α → Prop}

/-- Any sign, if the text alone has not ended. -/
theorem sign_of_ne_nil {c : Char} (hc : c ≠ '/' ∧ c ≠ '"') :
    Parallel comparison n 1 (fun i j => At d e i j ∧ j.chars ≠ []) (char c) (char c) Eq (At d e) := by
  have hhead {i j : Cursor} (hij : At d e i j ∧ j.chars ≠ []) : i.chars.head? = j.chars.head? := by
    rw [hij.1.text, List.head?_append_of_ne_nil _ hij.2]
  refine .char ⟨fun hij _ => by rw [hhead hij], fun {i j b} hij hb hi => ?_⟩
  refine hij.1.skip (c := b) (by rw [← hhead hij, hi]) ?_
  rw [beq_iff_eq.1 hb, Region.next_code hc.1 hc.2]

/-- Where a parser halts on the text alone, there is nothing more to compare. -/
theorem of_halts {P : List Char → Prop} {k : Nat} {B : Cursor → Cursor → Prop}
    (h : Parallel comparison n k (fun i j => At d e i j ∧ P j.chars) p p R B)
    (hend : ∀ cs, ¬ P cs → Halts p cs) : Parallel comparison n k (At d e) p p R B := by
  intro i j hi hij
  by_cases hP : P j.chars
  · exact h hi ⟨hij, hP⟩
  · obtain ⟨a, hhalt⟩ := hend _ hP
    rw [Cursor.ofChars_chars] at hhalt
    rw [hhalt]
    exact .lost trivial

/-- Where a closing sign is expected, it may stand behind the end of the text alone. -/
theorem closing {c : Char} {item : String} (hc : c ≠ '/' ∧ c ≠ '"') :
    Parallel comparison n 0 (At d e) (expect item (char c)) (expect item (char c)) Eq (At d e) := by
  refine of_halts (P := (· ≠ [])) ((sign_of_ne_nil hc).expect fun _ _ _ => trivial).less ?_
  intro cs hcs
  exact .expect (.char (by simp [not_not.1 hcs]))

/-- Where the text alone ends behind an opening parenthesis, it has no call there. -/
theorem misses_callArguments {x : Parser Expr} (hx : Misses x []) {v : List Char}
    (hv : skipBlank false v = []) : Misses (Grammar.callArguments x) ('(' :: v) := by
  have hspace : Reads Grammar.space v [] fun _ => True := hv ▸ reads_space_skip v
  refine .bind_of_reads (.discard .char) fun _ _ => .bind (.orElse ?_ ?_)
  · exact .bind (.discard (.lookAhead (.bind_of_reads hspace fun _ _ => .char (by simp))))
  · exact .bind (.bind_of_reads hspace fun _ _ => .bind hx)

end

/-! ## Tokens -/

section
variable {d : List Char} {e : Region} {n : Nat} (hd : Closes e d)
include hd

theorem space : Parallel comparison n 0 (At d e) Grammar.space Grammar.space (fun _ _ => True) (At d e) :=
  parallel_skipBlank reads_space_skip fun _ _ h => h.space hd

theorem steps_tokenChar : Parallel.Steps isTokenChar (At d e) (At d e) :=
  Followed.steps hd (fun _ => forall_mem_closers.2 (by decide)) fun _ hc =>
    Region.next_code (ne_of_test hc (by decide)) (ne_of_test hc (by decide))

/-- A sign other than a closing one. -/
theorem sign {c : Char} (hc : c ∉ '/' :: '"' :: closers) :
    Parallel comparison n 1 (At d e) (char c) (char c) Eq (At d e) := by
  simp only [List.mem_cons, not_or] at hc
  refine .char (Followed.steps hd (fun _ b hb => ?_) fun b hb => ?_)
  · refine beq_eq_false_iff_ne.2 ?_
    rintro rfl
    exact hc.2.2 hb
  · rw [beq_iff_eq.1 hb, Region.next_code hc.1 hc.2.1]

theorem quote {r r' : Region} (hr : r.next '"' = r') :
    Parallel comparison n 1 (fun i j => Followed d e r i.chars j.chars) (char '"') (char '"') Eq
      fun i j => Followed d e r' i.chars j.chars := by
  refine .char (Followed.steps hd (fun _ => forall_mem_closers.2 (by decide)) fun c hc => ?_)
  rw [beq_iff_eq.1 hc, hr]

theorem stringItem :
    Parallel comparison n 1 (fun i j => Followed d e .quoted i.chars j.chars) Grammar.stringItem
      Grammar.stringItem Eq fun i j => Followed d e .quoted i.chars j.chars := by
  apply Parallel.stringItem (B := fun i j => Followed d e .escaped i.chars j.chars)
  · refine Followed.steps hd (fun hr => by cases hr) fun c hc => ?_
    have hplain : c ∉ ['\\', '"', '\r', '\n'] := by simpa using hc
    simp only [List.mem_cons, not_or] at hplain
    rw [Region.next, if_neg hplain.2.1, if_neg hplain.1]
  · refine Followed.steps hd (fun hr => by cases hr) fun c hc => ?_
    rw [beq_iff_eq.1 hc]
    rfl
  · exact Followed.steps hd (fun hr => by cases hr) fun _ _ => rfl

theorem literal : Parallel comparison n 1 (At d e) Grammar.literal Grammar.literal Eq (At d e) := by
  refine .orElse ?_ (.orElse ?_ (.orElse ?_ ?_))
  · exact .string (quote hd rfl) (stringItem hd) (quote hd rfl) fun _ _ _ => trivial
  · exact .real (steps_tokenChar hd) fun _ _ hij => hij
  · exact (Parallel.integer (steps_tokenChar hd) fun _ _ hij => hij).start fun _ _ hij => ⟨hij, trivial⟩
  · exact .boolean (steps_tokenChar hd) fun _ _ hij => hij

theorem ident : Parallel comparison n 1 (At d e) Grammar.ident Grammar.ident (Same Ident.relocate)
    (At d e) :=
  (Parallel.ident (steps_tokenChar hd) (fun _ _ hij => hij) fun _ _ _ => rfl).start
    fun _ _ hij => ⟨hij, trivial⟩

theorem operator : Parallel comparison n 1 (At d e) Grammar.operator Grammar.operator Eq (At d e) :=
  .operator (steps_tokenChar hd) (fun _ _ hij => hij) (parallel_divideSign fun _ _ h => h.divide hd)

/-- Space before a place where the text alone has not ended. -/
theorem space_of_ne_nil :
    Parallel comparison n 0 (fun i j => At d e i j ∧ skipBlank false j.chars ≠ []) Grammar.space
      Grammar.space (fun _ _ => True) fun i j => At d e i j ∧ j.chars ≠ [] :=
  parallel_skipBlank (A := fun cs ds => Followed d e .code cs ds ∧ skipBlank false ds ≠ [])
    (B := fun cs ds => Followed d e .code cs ds ∧ ds ≠ []) reads_space_skip
    fun _ _ h => ⟨h.1.space hd, h.2⟩

/-! ## Space and brackets -/

variable {p : Parser α} {R : α → α → Prop}

theorem closingNext {c : Char} {item : String} (hc : c ≠ '/' ∧ c ≠ '"') :
    Parallel comparison n 0 (At d e) (expect item (afterSpace (char c)))
      (expect item (afterSpace (char c))) Eq (At d e) := by
  refine of_halts (P := (skipBlank false · ≠ [])) (.expect ?_ fun _ _ _ => trivial) fun cs hcs => ?_
  · exact (space_of_ne_nil hd).bind fun _ _ _ => (sign_of_ne_nil hc).less
  · refine .expect (.bind_of_reads (reads_space_skip cs) fun _ _ => .char ?_)
    simp [not_not.1 hcs]

theorem spaced (h : Within d e n p R) : Within d e n (Grammar.spaced p) R := by
  refine .after (space hd) fun _ _ _ => h.bind (fun a b hab => ?_) fun b k hk => ?_
  · exact .of_parallel ((space hd).bind fun _ _ _ => .pure hab)
  · exact .of_reads hk (Q := fun _ => True) (.bind hk.reads_space fun _ _ => .pure trivial)

/-- What has to follow a token, after space. -/
theorem expectNext {item : String} (h : Within d e n p R) :
    Unless comparison Stuck n 0 (At d e) (expect item (afterSpace p)) (expect item (afterSpace p)) R
      (At d e) :=
  (Unless.after (space hd) fun _ _ _ => h.less).expect fun _ _ _ => trivial

/-- What stands between two brackets, with space around it. -/
theorem enclosed {o c : Char} {item item' : String} (ho : o ∉ '/' :: '"' :: closers)
    (hc : c ≠ '/' ∧ c ≠ '"') (hstuck : c ≠ '(') (h : Within d e n p R) :
    Parallel comparison (n + 1) 1 (At d e)
      (do
        discard <| char o
        let a ← expect item (Grammar.spaced p)
        discard <| expect item' (char c)
        return a)
      (do
        discard <| char o
        let a ← expect item (Grammar.spaced p)
        discard <| expect item' (char c)
        return a) R (At d e) := by
  refine (sign hd ho).discard.bind_shorter fun _ _ _ => ?_
  refine ((spaced hd h).expect fun _ _ _ => trivial).less.close (fun a b hab => ?_)
    (fun _ _ => trivial) fun b k hk => ?_
  · exact (closing hc).discard.bind fun _ _ _ => .pure hab
  · exact .bind (.bind (.expect (hk.misses_char hstuck)))

/-! ## Calls -/

/-- The arguments of a call, if the text alone does not end behind the opening parenthesis. -/
theorem arguments {x : Parser Expr} (h : Within d e n x (Same Expr.relocate)) :
    Unless comparison Stuck n 0 (fun i j => At d e i j ∧ skipBlank false j.chars ≠ [])
      ((do discard <| lookAhead (afterSpace (char ')')); return []) <|>
        sepBy1 (Grammar.spaced x) (char ','))
      ((do discard <| lookAhead (afterSpace (char ')')); return []) <|>
        sepBy1 (Grammar.spaced x) (char ','))
      (List.Forall₂ (Same Expr.relocate)) (At d e) := by
  refine .orElse (.of_parallel ?_) ?_
  · have hclose : Parallel comparison n 0 _ (afterSpace (char ')')) (afterSpace (char ')')) Eq (At d e) :=
      (space_of_ne_nil hd).bind fun _ _ _ => (sign_of_ne_nil (by decide)).less
    refine (hclose.lookAhead.discard.rest fun _ _ hij => hij.1).bind fun _ _ _ => .pure .nil
  · refine ((spaced hd h).sepBy1 (sign hd (by decide)) fun k hk => ?_).less.start fun _ _ hij => hij.1
    exact hk.misses_char (by decide)

/-- A call is read alike, unless the text alone ends behind the opening parenthesis. -/
theorem callArguments {x : Parser Expr} (h : Within d e n x (Same Expr.relocate)) :
    Parallel comparison (n + 1) 1
      (fun i j => At d e i j ∧ ∀ v, j.chars = '(' :: v → skipBlank false v ≠ [])
      (Grammar.callArguments x) (Grammar.callArguments x) (List.Forall₂ (Same Expr.relocate))
      (At d e) := by
  have hopen : Parallel.Steps (· == '(')
      (fun i j => At d e i j ∧ ∀ v, j.chars = '(' :: v → skipBlank false v ≠ [])
      (fun i j => At d e i j ∧ skipBlank false j.chars ≠ []) := by
    have hsign {c : Char} (hc : (c == '(') = true) : c ∉ closers := by
      rw [beq_iff_eq.1 hc]
      decide
    refine ⟨fun hij hc => hij.1.head?_iff hd fun _ => hsign hc, fun {i j c} hij hc hi => ?_⟩
    have hj := (hij.1.head?_iff hd fun _ => hsign hc).1 hi
    obtain rfl := beq_iff_eq.1 hc
    obtain ⟨v, hv⟩ := List.head?_eq_some_iff.1 hj
    refine ⟨hij.1.skip hj rfl, ?_⟩
    simpa [hv] using hij.2 v hv
  refine (Parallel.char hopen).discard.bind_shorter fun _ _ _ => ?_
  refine (arguments hd h).close (fun as bs has => ?_) (fun _ _ => trivial) fun bs k hk => ?_
  · exact (closingNext hd (by decide)).discard.bind fun _ _ _ => .pure has
  · refine .bind (.bind (.expect (.bind_of_reads hk.reads_space fun _ _ => ?_)))
    exact hk.misses_char (by decide)

theorem maybe_callArguments {x : Parser Expr} (h : Within d e n x (Same Expr.relocate))
    (hx : Misses x []) :
    Unless comparison Stuck (n + 1) 0 (At d e) (maybe (Grammar.callArguments x))
      (maybe (Grammar.callArguments x)) (Option.Rel (List.Forall₂ (Same Expr.relocate))) (At d e) := by
  intro i j hi hij
  by_cases hend : ∃ v, j.chars = '(' :: v ∧ skipBlank false v = []
  · obtain ⟨v, hj, hv⟩ := hend
    have hstuck : Stuck j := by rw [Stuck, hj]; rfl
    refine .inr (.of_reads hstuck (.maybe_none ?_))
    rw [hj]
    exact misses_callArguments hx hv
  · refine .inl ((callArguments hd h).maybe (fun _ _ hij => hij.1) hi ⟨hij, fun v hj hv => ?_⟩)
    exact hend ⟨v, hj, hv⟩

/-! ## Paths -/

variable {x : Parser Expr}

theorem index (h : Within d e n x (Same Expr.relocate)) :
    Parallel comparison (n + 1) 1 (At d e) (Grammar.index x) (Grammar.index x) (Same Expr.relocate)
      (At d e) :=
  enclosed hd (by decide) (by decide) (by decide) h

theorem segment (h : Within d e n x (Same Expr.relocate)) (hx : Misses x []) :
    Within d e (n + 1) (Grammar.segment x) (Same Segment.relocate) := by
  refine .after_left (ident hd) fun name name' hname => ?_
  refine (maybe_callArguments hd h hx).bind (fun args args' hargs => ?_) fun args k hk => ?_
  · refine .of_parallel ((index hd h).many.bind fun indices indices' hindices => .pure ?_)
    have hargs : args.map (List.map (Expr.relocate fun _ => default)) =
        args'.map (List.map (Expr.relocate fun _ => default)) := by
      cases hargs with
      | none => rfl
      | some hargs => exact congrArg some (Same.map hargs)
    simp only [Same, Segment.relocate, Segment.mk.injEq]
    exact ⟨hname, hargs, Same.map hindices⟩
  · exact .of_reads hk (Q := fun _ => True) (.bind (.many_nil hk.misses_index) fun _ _ => .pure trivial)

theorem path (h : Within d e n x (Same Expr.relocate)) (hx : Misses x []) :
    Within d e (n + 1) (Grammar.path x) (Same Path.relocate) := by
  have hmember : Within d e (n + 1)
      (do discard <| char '.'; expect "member name after '.'" (Grammar.segment x))
      (Same Segment.relocate) :=
    .after_left (sign hd (by decide)).discard fun _ _ _ =>
      ((segment hd h hx).expect fun _ _ _ => trivial).less
  have hmiss (k : Cursor) (hk : Stuck k) : Misses
      (do discard <| char '.'; expect "member name after '.'" (Grammar.segment x)) k.chars :=
    .bind (.discard (hk.misses_char (by decide)))
  refine (segment hd h hx).bind (fun first first' hfirst => ?_) fun first k hk => ?_
  · refine (hmember.many (fun _ _ hij => .inl hij) hmiss).bind_pure fun others others' hothers => ?_
    rw [Same, Segment.relocate_foldl_extend, Segment.relocate_foldl_extend, Segment.relocate_start,
      Segment.relocate_start, hfirst.eq, Same.map hothers]
  · exact .of_reads hk (Q := fun _ => True) (.bind (.many_nil (hmiss k hk)) fun _ _ => .pure trivial)

theorem value (h : Within d e n x (Same Expr.relocate)) (hx : Misses x []) :
    Within d e (n + 1) (Grammar.value x) (Same Expr.relocate) := by
  refine .orElse (.of_parallel ((literal hd).bind_left ?_)) ?_
  · rintro v _ rfl
    exact .pure rfl
  · exact (path hd h hx).bind_pure fun p q hpq => congrArg Expr.path hpq

/-! ## Operands and operators -/

theorem negation {p : Parser Expr} (h : Within d e n p (Same Expr.relocate)) :
    Within d e (n + 1) (Grammar.negation p) (Same Expr.relocate) := by
  have hword := Parallel.word (w := comparison) (n := n + 1) (s := "not") (steps_tokenChar hd)
    (fun _ _ hij => hij) (by decide)
  refine .after .here fun start start' hstart => .after_shorter hword fun _ _ _ => ?_
  exact (expectNext hd h).bind_pure fun a b hab => congrArg (Expr.not default) hab

theorem link (h : Within d e n (operand x) (Same Expr.relocate)) :
    Within d e n (Grammar.link x) (Same Link.relocate) := by
  refine .after (space hd) fun _ _ _ => .after .here fun start start' hstart => ?_
  refine .after_left (operator hd) ?_
  rintro o _ rfl
  exact (expectNext hd h).bind_pure fun a b hab => congrArg (Link.mk default o) hab

theorem operand_and_expression (n : Nat) :
    Within d e n (operand expression) (Same Expr.relocate) ∧
      Within d e n expression (Same Expr.relocate) := by
  induction n with
  | zero => exact ⟨.zero, .zero⟩
  | succ n ih =>
    have hparenthesized : Parallel comparison (n + 1) 1 (At d e) (parenthesized expression)
        (parenthesized expression) (Same Expr.relocate) (At d e) :=
      enclosed hd (by decide) (by decide) (by decide) ih.2
    have hoperand : Within d e (n + 1) (operand expression) (Same Expr.relocate) := by
      rw [operand_expression_eq]
      have hvalue := value hd ih.2 NoExpr.nil.misses_expression
      exact (negation hd ih.1).orElse ((Unless.of_parallel hparenthesized).orElse hvalue)
    refine ⟨hoperand, ?_⟩
    rw [expression_eq]
    refine hoperand.bind (fun first first' hfirst => ?_) fun first k hk => ?_
    · refine (Unless.many (link hd hoperand) (fun _ _ hij => .inl hij) fun k hk => ?_).bind_pure ?_
      · exact hk.misses_link
      · intro links links' hlinks
        rw [Same, Expr.relocate_ofChain, Expr.relocate_ofChain, hfirst.eq, Same.map hlinks]
    · exact .of_reads hk (Q := fun _ => True) (.bind (.many_nil hk.misses_link) fun _ _ => .pure trivial)

end

/-! ## Whole expressions -/

theorem eq_of_space {i j : Cursor} {m : Mark} (h : Grammar.space i = .done () j m) :
    j = .ofChars (skipBlank false i.chars) := by
  obtain ⟨_, m', hread, -⟩ := reads_space_skip i.chars
  rw [Cursor.ofChars_chars, h] at hread
  cases hread
  rfl

/-- An expression that was read stands behind the space at the start of its text, and only space stands
behind it. -/
theorem exists_done_of_parse {text : String} {a : Expr} (h : Expr.parse text = .ok a) :
    ∃ j m, expression (.ofChars (skipBlank false text.toList)) = .done a j m ∧
      skipBlank false j.chars = [] := by
  obtain ⟨k, m, hdone⟩ := Parser.read_eq_ok_iff.1 h
  obtain ⟨b, l, _, _, hspaced, hend⟩ := done_of_bind hdone
  obtain ⟨_, i, _, _, hspace, hspaced⟩ := done_of_bind hspaced
  obtain ⟨c, j, m', _, hexpression, hspaced⟩ := done_of_bind hspaced
  obtain ⟨_, l', _, _, hspace', hpure⟩ := done_of_bind hspaced
  cases hpure
  obtain ⟨_, l'', _, _, hend, hpure⟩ := done_of_bind hend
  cases hpure
  obtain rfl := eq_of_space hspace
  obtain rfl := eq_of_space hspace'
  rw [Cursor.ofString_eq] at hexpression
  refine ⟨j, m', by simpa using hexpression, ?_⟩
  simpa using (done_of_atEnd hend).2

/-- Where an expression has been read from a text up to space at its end, it is read as well from the
text with more behind it. -/
theorem exists_done_of_closes {u d : List Char} {e : Region} {a : Expr} {j : Cursor} {m : Mark}
    (hread : expression (.ofChars u) = .done a j m) (hblank : skipBlank false j.chars = [])
    (hd : Closes e d) (he : (Region.code.after u).settled = e) :
    ∃ b i m', expression (.ofChars (u ++ d)) = .done b i m' ∧ Same Expr.relocate b a ∧
      Followed d e .code i.chars j.chars := by
  have hstart : At d e (.ofChars (u ++ d)) (.ofChars u) := ⟨he, rfl⟩
  rcases (operand_and_expression hd _).2 (Nat.lt_succ_self _) hstart with hmatch | hstuck
  · rw [hread] at hmatch
    generalize hr : expression (.ofChars (u ++ d)) = r at hmatch
    cases hmatch with
    | done value rest => exact ⟨_, _, _, rfl, value, rest.1⟩
  · obtain ⟨b, k, m', hk, hstuck, -⟩ := hstuck
    rw [hread] at hk
    cases hk
    -- a parenthesis is no space
    obtain ⟨v, hv⟩ := List.head?_eq_some_iff.1 hstuck
    rw [hv, (NoPiece.other (by decide) (by decide) (by decide)).skipBlank_eq] at hblank
    cases hblank

/-- The text is read as the expression wherever a closing sign follows it, but for the places. -/
structure Embeds (text : List Char) (a : Expr) : Prop where
  start : ¬ NoExpr (skipBlank false text)
  region : (Region.code.after text).settled = .code
  reads : ∃ rest, skipBlank false rest = [] ∧ ∀ d, Closes .code d →
    Reads expression (skipBlank false text ++ d) (rest ++ d) (·.erase = a.erase)

theorem embeds_of_parse {text : String} {a : Expr} (h : Expr.parse text = .ok a) :
    Embeds text.toList a := by
  obtain ⟨j, m, hread, hblank⟩ := exists_done_of_parse h
  have hcode : (Region.code.after (skipBlank false text.toList)).settled = .code := by
    obtain ⟨_, _, _, -, -, hj⟩ := exists_done_of_closes hread hblank .nil rfl
    rw [← hj.region, ← Region.after_skipSpace, hblank]
    rfl
  refine ⟨fun hno => ?_, Region.after_skipSpace _ ▸ hcode, j.chars, hblank, fun d hd => ?_⟩
  · obtain ⟨m', hmiss⟩ := hno.misses_expression
    rw [hread] at hmiss
    cases hmiss
  · obtain ⟨b, i, m', hdone, hb, hi⟩ := exists_done_of_closes hread hblank hd hcode
    have herase : b.erase = a.erase := by rw [Expr.erase_eq_relocate, Expr.erase_eq_relocate, hb.eq]
    refine ⟨b, m', ?_, herase⟩
    rw [hdone, ← hi.text, Cursor.ofChars_chars]

end Embedding

end Primer
