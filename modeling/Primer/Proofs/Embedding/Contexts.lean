import Primer.Proofs.Embedding.Expr
import Primer.Proofs.RoundTrip.Program

/-!
An expression means the same wherever it is written: within parentheses, as the argument of a call and as
an index, and as the value that a function returns. Main statement: `Expr.parse_embedded`.
-/

namespace Primer

open Primer.Parser Primer.Grammar

theorem legalName_f : LegalName "f" := legalName_of_letter rfl (by decide) (by decide)

namespace Embedding

/-- A function without parameters that returns what the text is read as. -/
def functionText (text : List Char) : List Char :=
  "function".toList ++ ' ' :: ("f".toList ++ '(' :: ("".toList ++ ')' :: ' ' :: ':' :: ' ' ::
    ("integer".toList ++ '\n' :: ("return".toList ++ ' ' :: (text ++ '\n' :: ("end".toList ++ ['\n']))))))

namespace Embeds

variable {text d z : List Char} {a : Expr} (h : Embeds text a)
include h

theorem reads_space (hd : Closes .code d) :
    Reads Grammar.space (text ++ d) (skipBlank false text ++ d) fun _ => True := by
  have hread := reads_space_skip (text ++ d)
  rwa [hd.skipBlank_append h.region] at hread

omit h in
theorem reads_space_of_blank {rest : List Char} (hrest : skipBlank false rest = [])
    (hd : Closes .code d) : Reads Grammar.space (rest ++ d) d fun _ => True := by
  have hread := reads_space_skip (rest ++ d)
  have hregion : (Region.code.after rest).settled = .code := by
    rw [← Region.after_skipSpace, hrest]
    rfl
  rwa [hd.skipBlank_append hregion, hrest] at hread

/-- With space around it, the expression is read up to the closing sign. -/
theorem reads_spaced (hd : Closes .code d) :
    Reads (Grammar.spaced expression) (text ++ d) d (·.erase = a.erase) := by
  obtain ⟨rest, hrest, hread⟩ := h.reads
  refine .bind (h.reads_space hd) fun _ _ => .bind (hread d hd) fun b hb => ?_
  exact .bind (reads_space_of_blank hrest hd) fun _ _ => .pure hb

theorem reads_enclosed {o c : Char} {item item' : String} (hc : c ∈ closers) :
    Reads (do
      discard <| char o
      let a ← expect item (Grammar.spaced expression)
      discard <| expect item' (char c)
      return a) (o :: (text ++ c :: z)) z (·.erase = a.erase) := by
  refine .bind (.discard .char) fun _ _ => .bind (.expect (h.reads_spaced (.cons hc z))) fun b hb => ?_
  exact .bind (.discard (.expect .char)) fun _ _ => .pure hb

/-! ## Calls -/

/-- The expression is no closing parenthesis. -/
theorem misses_close (hd : Closes .code d) : Misses (afterSpace (char ')')) (text ++ d) := by
  refine .bind_of_reads (h.reads_space hd) fun _ _ => .char fun hhead => h.start ?_
  cases hskip : skipBlank false text with
  | nil => exact .nil
  | cons c cs =>
    rw [hskip] at hhead
    cases hhead
    intro b hb
    cases hb
    decide

theorem reads_callArguments :
    Reads (Grammar.callArguments expression) ('(' :: (text ++ ')' :: z)) z
      (·.map Expr.erase = [a.erase]) := by
  have hclose : Closes .code (')' :: z) := .cons (by decide) z
  have hargs : Reads (sepBy1 (Grammar.spaced expression) (char ',')) (text ++ ')' :: z) (')' :: z)
      (·.map Expr.erase = [a.erase]) := by
    refine .bind (h.reads_spaced hclose) fun b hb => ?_
    refine .bind (.many_nil (.bind (.char (by simp)))) fun bs hbs => .pure ?_
    rw [hbs, List.map_cons, hb, List.map_nil]
  refine .bind (.discard .char) fun _ _ => .bind (Misses.orElse_reads ?_ hargs) fun args hargs => ?_
  · exact .bind (.discard (.lookAhead (h.misses_close hclose)))
  · refine .bind (.discard (.expect (reads_afterSpace ?_ .char))) fun _ _ => .pure hargs
    exact .of_cons (by decide) (by decide)

theorem reads_call :
    Reads (Grammar.path expression) ("f".toList ++ '(' :: (text ++ ')' :: '[' :: (text ++ [']']))) []
      (·.erase = .index (.call ⟨default, "f"⟩ [a.erase]) a.erase) := by
  have hident : Reads Grammar.ident ("f".toList ++ '(' :: (text ++ ')' :: '[' :: (text ++ [']'])))
      ('(' :: (text ++ ')' :: '[' :: (text ++ [']']))) (·.name = "f") :=
    reads_ident legalName_f (.of_cons (by decide))
  have hindex : Reads (Grammar.index expression) ('[' :: (text ++ [']'])) [] (·.erase = a.erase) :=
    h.reads_enclosed (by decide)
  have hsegment : Reads (Grammar.segment expression)
      ("f".toList ++ '(' :: (text ++ ')' :: '[' :: (text ++ [']']))) []
      (·.erase = ⟨⟨default, "f"⟩, some [a.erase], [a.erase]⟩) := by
    refine .bind hident fun x hx => .bind (.maybe_some h.reads_callArguments) ?_
    rintro _ ⟨args, rfl, hargs⟩
    refine .bind (.many_one hindex ?_ (.bind (.discard (.char (by simp))))) ?_
    · exact byteCount_lt_of_suffix List.nil_suffix (by simp)
    · rintro _ ⟨i, rfl, hi⟩
      refine .pure ?_
      simp only [Segment.erase, Option.map_some, hargs, List.map_cons, List.map_nil, hi, Segment.mk.injEq,
        and_true]
      exact congrArg (Ident.mk default) hx
  refine .bind hsegment fun s hs => ?_
  refine .bind (.many_nil (.bind (.discard (.char (by simp))))) ?_
  rintro _ rfl
  refine .pure ?_
  rw [List.foldl_nil, Segment.erase_start, hs]
  rfl

/-! ## Functions -/

theorem cons_blank : Embeds (' ' :: text) a := by
  have hskip : skipBlank false (' ' :: text) = skipBlank false text := (Piece.space rfl).skipBlank_eq
  obtain ⟨hstart, hregion, hreads⟩ := h
  rw [← hskip] at hstart hreads
  exact ⟨hstart, hregion, hreads⟩

theorem reads_result (hz : Solid (strip z)) :
    Reads Grammar.result ("return".toList ++ ' ' :: (text ++ '\n' :: z)) (strip z)
      (·.erase = .result default a.erase) := by
  have hclose : Closes .code ('\n' :: z) := .cons (by decide) z
  obtain ⟨rest, hrest, hread⟩ := h.cons_blank.reads
  have hline : Reads lineEnd (rest ++ '\n' :: z) (strip z) fun _ => True := by
    refine .bind (reads_space_of_blank hrest hclose) fun _ _ => ?_
    refine .bind (.discard (.maybe_none (misses_lineComment (by simp)))) fun _ _ => ?_
    exact .bind (.orElse (.discard .char)) fun _ _ => reads_blank hz
  refine .bind .here fun start _ => .bind (reads_word rfl .blank) fun _ _ => ?_
  refine .bind (.expect (.bind (h.cons_blank.reads_space hclose) fun _ _ => hread _ hclose)) ?_
  refine fun b hb => .bind (.expect hline) fun _ _ => .pure ?_
  rw [Instruction.erase, hb]

theorem reads_block (hz : Stops ["end"] (strip z)) :
    Reads (block instruction ["end"]) ("return".toList ++ ' ' :: (text ++ '\n' :: z)) (strip z)
      (·.map Instruction.erase = [.result default a.erase]) := by
  have hends : ["end"] ⊆ blockWords := by decide
  have hmem : ("return", Grammar.result) ∈ worded := by simp [worded]
  have hword := (worded_start hmem (c := ' ') (by decide) (text ++ '\n' :: z)).1
  have hread : Reads (do notFollowedBy (ahead ["end"]); instruction)
      ("return".toList ++ ' ' :: (text ++ '\n' :: z)) (strip z) (·.erase = .result default a.erase) := by
    refine .bind (.notFollowedBy (misses_ahead hends ?_)) fun _ _ => ?_
    · rw [hword]
      decide
    · exact reads_instruction_of_worded hmem hword (h.reads_result (hz.solid hends))
  refine (Reads.many_one hread ?_ (.bind (.notFollowedBy (reads_ahead hends hz)))).mono ?_
  · have hline : "return".toList ++ ' ' :: (text ++ ['\n']) ≠ [] := by simp
    simpa using byteCount_strip_lt hline z
  · rintro _ ⟨i, rfl, hi⟩
    rw [List.map_cons, hi, List.map_nil]

/-- The lines of a function that returns the expression. -/
theorem reads_routineBody (known : List String) :
    Reads (routineBody known)
      ('\n' :: ("return".toList ++ ' ' :: (text ++ '\n' :: ("end".toList ++ ['\n'])))) []
      fun b => b.1 = [] ∧ b.2.map Instruction.erase = [.result default a.erase] := by
  have hend : strip ("end".toList ++ ['\n']) = "end".toList ++ ['\n'] := by decide
  have hblock := h.reads_block (z := "end".toList ++ ['\n']) ⟨"end", by simp, _, hend, .newline⟩
  rw [hend] at hblock
  have hstart : Solid ("return".toList ++ ' ' :: (text ++ '\n' :: ("end".toList ++ ['\n']))) :=
    .of_cons (by decide) (by decide)
  have hline := reads_lineEnd ((strip_of_solid hstart).symm ▸ hstart)
  rw [strip_of_solid hstart] at hline
  refine .bind (.expect hline) fun _ _ => ?_
  refine .bind (.many_nil (.bind (misses_word_of_head (c := 'l') rfl (by simp)))) fun ls hls => ?_
  refine .bind hblock fun is his => .bind (.expect (reads_word rfl .newline)) fun _ _ => ?_
  exact .bind (.expect (reads_lineEnd .nil)) fun _ _ => .pure ⟨hls, his⟩

theorem reads_declarations :
    Reads Grammar.declarations (functionText text) []
      (·.map Declaration.erase =
        [.ofRoutine ⟨⟨default, "f"⟩, [], [], [.result default a.erase], some .integer⟩]) := by
  have hfunction := reads_functionDeclaration ⟨default, "f"⟩ [] .integer legalName_f (by simp) trivial
    (h.reads_routineBody [])
  delta functionText
  refine (Reads.manyWith_one (p := fun earlier => declaration (structureNames earlier))
    (Q := fun d => d.erase =
      .ofRoutine ⟨⟨default, "f"⟩, [], [], [.result default a.erase], some .integer⟩) ?_ ?_ ?_).mono ?_
  · refine (misses_structureDeclaration (by simp)).bind.orElse_reads ?_
    refine (misses_constantDeclaration (by simp)).bind.orElse_reads ?_
    refine (misses_globalDeclaration (by simp)).bind.orElse_reads (.orElse (.bind hfunction ?_))
    rintro r ⟨b, ⟨hlocals, hbody⟩, hr⟩
    refine .pure (congrArg Declaration.ofRoutine (hr.trans ?_))
    rw [Routine.erase, hlocals, hbody]
    rfl
  · exact byteCount_lt_of_suffix List.nil_suffix (by simp)
  · exact fun d _ => misses_declaration_nil _
  · rintro _ ⟨d, rfl, hd⟩
    rw [List.map_cons, hd, List.map_nil]

theorem reads_program :
    Reads Grammar.program ("program".toList ++ ' ' :: ("p".toList ++ '\n' :: functionText text)) []
      (·.erase = ⟨⟨default, "p"⟩, [], [], [],
        [⟨⟨default, "f"⟩, [], [], [.result default a.erase], some .integer⟩], []⟩) := by
  have hname : LegalName "p" := legalName_of_letter rfl (by decide) (by decide)
  have hsolid : Solid (functionText text) := .of_cons (by decide) (by decide)
  have hstrip := strip_of_solid hsolid
  have hdeclarations := h.reads_declarations
  rw [← hstrip] at hsolid hdeclarations
  refine (Program.reads_program hname hsolid hdeclarations).mono ?_
  rintro _ ⟨x, ds, hx, hds, rfl⟩
  rw [Program.erase_ofDeclarations, hds, Ident.erase, hx]
  rfl

end Embeds

end Embedding

/-- Where a text is read as an expression, it is read as the same expression in parentheses, as the
argument of a call and as an index, and as the value of a function. -/
theorem Expr.parse_embedded {t : String} {e : Expr} (h : Expr.parse t = .ok e) :
    (∃ a, Expr.parse ("(" ++ t ++ ")") = .ok a ∧ a.erase = e.erase) ∧
    (∃ a, Expr.parse ("f(" ++ t ++ ")[" ++ t ++ "]") = .ok a ∧
      a.erase = .path (.index (.call ⟨default, "f"⟩ [e.erase]) e.erase)) ∧
    ∃ p, Program.parse ("program p\nfunction f() : integer\nreturn " ++ t ++ "\nend\n") = .ok p ∧
      p.erase = ⟨⟨default, "p"⟩, [], [], [],
        [⟨⟨default, "f"⟩, [], [], [.result default e.erase], some .integer⟩], []⟩ := by
  have hembeds := Embedding.embeds_of_parse h
  refine ⟨?_, ?_, ?_⟩
  · have htext : ("(" ++ t ++ ")").toList = '(' :: (t.toList ++ [')']) := by simp
    refine exists_parse_of_operand (htext ▸ .of_cons (by decide) (by decide)) ?_
    rw [htext, operand_expression_eq]
    refine (misses_negation_of_head (by simp)).orElse_reads (.orElse ?_)
    exact hembeds.reads_enclosed (by decide)
  · have htext : ("f(" ++ t ++ ")[" ++ t ++ "]").toList =
        "f".toList ++ '(' :: (t.toList ++ ')' :: '[' :: (t.toList ++ [']'])) := by simp
    refine exists_parse_of_operand (htext ▸ .of_cons (by decide) (by decide)) ?_
    rw [htext]
    refine (chained_expression.reads_operand_of_path legalName_f (.of_cons (by decide))
      hembeds.reads_call).mono ?_
    rintro _ ⟨p, hp, rfl⟩
    rw [Expr.erase, hp]
  · have htext : ("program p\nfunction f() : integer\nreturn " ++ t ++ "\nend\n").toList =
        "program".toList ++ ' ' :: ("p".toList ++ '\n' :: Embedding.functionText t.toList) := by
      delta Embedding.functionText
      simp
    have hread := hembeds.reads_program
    rw [← htext] at hread
    exact hread.exists_read

/-- A text in which the signs that close an expression stand in a comment and in a string. -/
def remarkedText : String := " not a %/*)*/ f(\")]\", -1) "

def remarkedExpr : Expr :=
  .binary ⟨19⟩ .remainder (.not ⟨25⟩ (.path (.var ⟨⟨21⟩, "a"⟩)))
    (.path (.call ⟨⟨12⟩, "f"⟩ [.literal (.string ")]"), .literal (.integer (-1))]))

theorem Expr.parse_embedded_remarked : Expr.parse remarkedText = .ok remarkedExpr ∧
    (∃ a, Expr.parse ("(" ++ remarkedText ++ ")") = .ok a ∧ a.erase = remarkedExpr.erase) ∧
    (∃ a, Expr.parse ("f(" ++ remarkedText ++ ")[" ++ remarkedText ++ "]") = .ok a ∧
      a.erase = .path (.index (.call ⟨default, "f"⟩ [remarkedExpr.erase]) remarkedExpr.erase)) ∧
    ∃ p, Program.parse ("program p\nfunction f() : integer\nreturn " ++ remarkedText ++ "\nend\n") =
        .ok p ∧
      p.erase = ⟨⟨default, "p"⟩, [], [], [],
        [⟨⟨default, "f"⟩, [], [], [.result default remarkedExpr.erase], some .integer⟩], []⟩ := by
  have hparse : Expr.parse remarkedText = .ok remarkedExpr := by decide +kernel
  exact ⟨hparse, Expr.parse_embedded hparse⟩

end Primer
