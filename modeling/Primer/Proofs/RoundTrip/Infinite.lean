import Primer.Proofs.ReadErrors.Impasse
import Primer.Proofs.RoundTrip.Program
import Primer.Proofs.Typing.Scope

/-!
Infinite reals and the canonical text. A real that is too large for its type is read as an infinite one,
and the text of that is not a number: it has no digit before its point, and no reading gets past that
(`Stray`). All else reads back, so the canonical text of a program that was read is itself read exactly if
every real in it is finite (`Program.parse_canonicalText_iff`).
-/

namespace Primer

/-! ## Texts that cannot be read -/

/-- The end of the text of an infinite real stands in the code. -/
def Misspelled (cs : List Char) : Prop :=
  ∃ w rest, cs = w ++ 'f' :: '.' :: '0' :: rest ∧ Region.code.after w = .code

namespace Misspelled

variable {cs : List Char}

theorem stray (h : Misspelled cs) : Stray cs := by
  obtain ⟨w, rest, rfl, hw⟩ := h
  refine ⟨w ++ ['f'], '0', rest, by simp, by decide, ?_, fun c hc => ?_⟩
  · rw [Region.after_append, hw]
    rfl
  · rw [List.getLast?_concat, Option.mem_some] at hc
    rw [← hc]
    decide

theorem append_right (h : Misspelled cs) (ds : List Char) : Misspelled (cs ++ ds) := by
  obtain ⟨w, rest, rfl, hw⟩ := h
  exact ⟨w, rest ++ ds, by simp, hw⟩

theorem append_left {ds : List Char} (hds : Region.code.after ds = .code) (h : Misspelled cs) :
    Misspelled (ds ++ cs) := by
  obtain ⟨w, rest, rfl, hw⟩ := h
  exact ⟨ds ++ w, rest, by simp, by rw [Region.after_append, hds, hw]⟩

end Misspelled

/-- A text for these expressions, with nothing left open at its end. It is misspelled unless all of their
reals are finite. -/
structure Spelled (nodes : List Expr) (cs : List Char) : Prop where
  code : Region.code.after cs = .code
  finite : ¬Misspelled cs → FiniteReals nodes

@[simp] theorem finiteReals_nil : FiniteReals [] := by
  intro x hx
  cases hx

namespace Spelled

variable {as bs : List Expr} {cs ds : List Char} {s t : String}

theorem mono (h : Spelled as cs) (hab : FiniteReals as → FiniteReals bs) : Spelled bs cs :=
  ⟨h.code, fun hcs => hab (h.finite hcs)⟩

theorem append (h : Spelled as cs) (h' : Spelled bs ds) : Spelled (as ++ bs) (cs ++ ds) where
  code := by rw [Region.after_append, h.code, h'.code]
  finite hnot := finiteReals_append.2 ⟨h.finite fun hcs => hnot (hcs.append_right ds),
    h'.finite fun hds => hnot (hds.append_left h.code)⟩

theorem text_append (h : Spelled as s.toList) (h' : Spelled bs t.toList) :
    Spelled (as ++ bs) (s ++ t).toList := by
  rw [String.toList_append]
  exact h.append h'

/-- A text without expressions. -/
theorem plain (h : Region.code.after cs = .code) : Spelled [] cs := ⟨h, fun _ => finiteReals_nil⟩

theorem parens (h : Spelled as s.toList) : Spelled as ("(" ++ s ++ ")").toList := by
  have hopen : Spelled [] "(".toList := plain (by decide)
  have hclose : Spelled [] ")".toList := plain (by decide)
  exact ((hopen.text_append h).text_append hclose).mono (by simp)

theorem of_chars (h : ∀ c ∈ cs, c ≠ '/' ∧ c ≠ '"') : Spelled [] cs := by
  refine plain ?_
  induction cs with
  | nil => rfl
  | cons c cs ih =>
    rw [List.forall_mem_cons] at h
    rw [Region.after_cons, Region.next_code h.1.1 h.1.2, ih h.2]

theorem name (h : LegalName s) : Spelled [] s.toList := by
  refine of_chars fun c hc => ?_
  have hname := h.chars c hc
  constructor
  · rintro rfl
    cases hname
  · rintro rfl
    cases hname

theorem flatMap {l : List α} {f : α → List Char} {nodes : α → List Expr}
    (h : ∀ a ∈ l, Spelled (nodes a) (f a)) : Spelled (l.flatMap nodes) (l.flatMap f) := by
  induction l with
  | nil => exact plain rfl
  | cons a l ih =>
    have hrest := ih fun b hb => h b (List.mem_cons_of_mem a hb)
    exact (h a List.mem_cons_self).append hrest

theorem intercalate {l : List α} {f : α → String} {nodes : α → List Expr}
    (h : ∀ a ∈ l, Spelled (nodes a) (f a).toList) :
    Spelled (l.flatMap nodes) (", ".intercalate (l.map f)).toList := by
  rw [String.toList_intercalate]
  cases l with
  | nil => exact plain rfl
  | cons a l =>
    rw [List.forall_mem_cons] at h
    rw [List.map_cons, List.map_cons, intercalate_cons, List.flatMap_map, List.flatMap_map]
    have hcomma : Spelled [] ", ".toList := plain (by decide)
    exact h.1.append (.flatMap fun b hb => hcomma.append (h.2 b hb))

end Spelled

/-! ## Expressions -/

namespace Canonical

theorem ne_of_isDigit {c : Char} (h : c.isDigit = true) : c ≠ '/' ∧ c ≠ '"' := by
  constructor
  · rintro rfl
    cases h
  · rintro rfl
    cases h

theorem spelled_int (z : Int) : Spelled [] (toString z).toList := by
  refine .of_chars fun c hc => ?_
  rw [toList_toString_int, List.mem_append] at hc
  rcases hc with hc | hc
  · split at hc
    · rw [List.mem_singleton.1 hc]
      decide
    · cases hc
  · exact ne_of_isDigit (isDigit_of_mem_toDigits hc)

theorem spelled_real (x : Binary64) : Spelled [.literal (.real x)] x.literalText.toList := by
  cases hfin : x.isFinite with
  | true =>
    obtain ⟨whole, fraction, htext, -, hwhole, -, hfraction, -⟩ := Binary64.literalText_eq hfin
    refine Spelled.mono (.of_chars fun c hc => ?_) fun _ => by simpa [FiniteReals] using hfin
    rw [htext, List.mem_append, List.mem_append, List.mem_cons] at hc
    rcases hc with hsign | hc | rfl | hc
    · split at hsign
      · rw [List.mem_singleton.1 hsign]
        decide
      · cases hsign
    · exact ne_of_isDigit (hwhole c hc)
    · decide
    · exact ne_of_isDigit (hfraction c hc)
  | false =>
    rw [Binary64.literalText_of_infinite hfin]
    refine ⟨by cases x.negative <;> decide, fun hnot => absurd ?_ hnot⟩
    refine ⟨(if x.negative then ['-'] else []) ++ ['i', 'n'], [], by simp, ?_⟩
    cases x.negative <;> decide

theorem spelled_literal {v : Literal} (h : v.Legal) : Spelled [.literal v] (literal v).toList := by
  cases v with
  | string text =>
    have htext : (literal (.string text)).toList = '"' :: (text.toList ++ ['"']) := by simp [literal]
    rw [htext]
    refine Spelled.mono (.plain ?_) fun _ => by simp [FiniteReals]
    rw [Region.after_cons, Region.after_append]
    exact congrArg (Region.after · ['"']) (Region.after_legalText h)
  | real x => exact spelled_real x
  | integer z => exact (spelled_int z).mono fun _ => by simp [FiniteReals]
  | natural n => exact (spelled_int n).mono fun _ => by simp [FiniteReals]
  | boolean b => exact Spelled.mono (.plain (by cases b <;> decide)) fun _ => by simp [FiniteReals]

theorem spelled_parenthesize {e : Expr} {nodes : List Expr} {text : String}
    (h : Spelled nodes text.toList) : Spelled nodes (e.parenthesize text).toList := by
  rw [Expr.parenthesize]
  split
  · exact h
  · exact h.parens

/-- Arguments in parentheses. -/
theorem spelled_arguments {es : List Expr} (h : ∀ e ∈ es, Spelled e.nodes (expr e).toList) :
    Spelled (Expr.nodesAll es) ("(" ++ ", ".intercalate (exprs es) ++ ")").toList := by
  rw [exprs_eq_map, Expr.nodesAll_eq_flatMap]
  exact Spelled.parens (.intercalate h)

/-- An expression that is no literal adds no real. -/
theorem finiteReals_cons {e : Expr} {nodes : List Expr} (he : ∀ v, e ≠ .literal v)
    (h : FiniteReals nodes) : FiniteReals (e :: nodes) := by
  intro x hx
  rcases List.mem_cons.1 hx with heq | hx
  · exact absurd heq.symm (he _)
  · exact h x hx

mutual
theorem spelled_expr : ∀ e : Expr, e.Legal → Spelled e.nodes (expr e).toList
  | .literal v, h => spelled_literal h
  | .path p, h => (spelled_path p h).mono (finiteReals_cons (by simp))
  | .not i e, h => by
    have hword : Spelled [] "not ".toList := .plain (by decide)
    have he : Spelled e.nodes (e.parenthesize (expr e)).toList := spelled_parenthesize (spelled_expr e h)
    rw [expr]
    exact (hword.text_append he).mono (finiteReals_cons (by simp))
  | .binary i o left right, h => by
    have hl : Spelled left.nodes (left.parenthesize (expr left)).toList :=
      spelled_parenthesize (spelled_expr left h.1)
    have hr : Spelled right.nodes (right.parenthesize (expr right)).toList :=
      spelled_parenthesize (spelled_expr right h.2)
    have hsign : Spelled [] (" " ++ o.text ++ " ").toList := .plain (by cases o <;> decide)
    have hbinary := (hl.text_append hsign).text_append hr
    rw [List.append_nil] at hbinary
    rw [expr, Expr.nodes]
    simpa only [String.append_assoc] using hbinary.mono (finiteReals_cons (by simp))

theorem spelled_path : ∀ p : Path, p.Legal → Spelled p.nodes (path p).toList
  | .var x, h => .name h
  | .call f args, h => by
    have hargs := spelled_arguments (spelled_exprs args h.2)
    rw [path, Path.nodes]
    simpa only [String.append_assoc, List.nil_append] using (Spelled.name h.1).text_append hargs
  | .index base i, h => by
    have hopen : Spelled [] "[".toList := .plain (by decide)
    have hclose : Spelled [] "]".toList := .plain (by decide)
    rw [path]
    exact ((((spelled_path base h.1).text_append hopen).text_append (spelled_expr i h.2)).text_append
      hclose).mono (by simp [Path.nodes])
  | .member base x, h => by
    have hpoint : Spelled [] ".".toList := .plain (by decide)
    rw [path]
    exact (((spelled_path base h.1).text_append hpoint).text_append (.name h.2)).mono
      (by simp [Path.nodes])
  | .method base m args, h => by
    have hpoint : Spelled [] ".".toList := .plain (by decide)
    have hname := ((spelled_path base h.1).text_append hpoint).text_append (.name h.2.1)
    have hcall := hname.text_append (spelled_arguments (spelled_exprs args h.2.2))
    rw [path, Path.nodes]
    simpa only [String.append_assoc, List.append_assoc, List.nil_append] using hcall

theorem spelled_exprs : ∀ es : List Expr, Expr.LegalAll es →
    ∀ e ∈ es, Spelled e.nodes (expr e).toList
  | [], _ => by simp
  | e :: es, h => by
    rw [List.forall_mem_cons]
    exact ⟨spelled_expr e h.1, spelled_exprs es h.2⟩
end

end Canonical

/-! ## Scripts -/

/-- The text that the steps write is one for these expressions, whatever the margin. -/
def Writes (fresh : Bool) (nodes : List Expr) (steps : List Step) : Prop :=
  ∀ w d, ∃ text, Lays w d fresh steps text ∧ Spelled nodes text

theorem spelled_lead (w d : Nat) (fresh : Bool) : Spelled [] (lead w d fresh) := by
  refine .of_chars fun c hc => ?_
  rw [lead] at hc
  split at hc
  · rw [List.eq_of_mem_replicate hc]
    decide
  · cases hc

namespace Writes

variable {fresh : Bool} {as bs : List Expr} {steps steps' : List Step} {t : String}

theorem mono (h : Writes fresh as steps) (hab : FiniteReals as → FiniteReals bs) :
    Writes fresh bs steps := by
  intro w d
  obtain ⟨text, hlays, htext⟩ := h w d
  exact ⟨text, hlays, htext.mono hab⟩

theorem nil : Writes true [] [] := fun _ _ => ⟨[], .nil, .plain rfl⟩

theorem append (h : Writes fresh as steps) (h' : Writes true bs steps') :
    Writes fresh (as ++ bs) (steps ++ steps') := by
  intro w d
  obtain ⟨text, hlays, htext⟩ := h w d
  obtain ⟨text', hlays', htext'⟩ := h' w d
  exact ⟨text ++ text', hlays.append hlays', htext.append htext'⟩

theorem newline : Writes fresh [] [.newline] := fun _ _ => ⟨['\n'], .newline, .plain (by decide)⟩

theorem write (ht : t ≠ "") (h : Spelled as t.toList) (h' : Writes false bs steps) :
    Writes fresh (as ++ bs) (.write t :: steps) := by
  intro w d
  obtain ⟨text, hlays, htext⟩ := h' w d
  exact ⟨_, .write ht hlays, (spelled_lead w d fresh).append (h.append htext)⟩

theorem line (h : Spelled as t.toList) : Writes fresh as (Step.line t) := by
  by_cases ht : t = ""
  · subst ht
    have hfinite : FiniteReals as := h.finite (by simp [Misspelled])
    exact fun _ _ => ⟨['\n'], .line_empty, (Spelled.plain (by decide)).mono fun _ => hfinite⟩
  · exact (Writes.write ht h .newline).mono (by simp)

theorem indented (h : Writes true as steps) : Writes true as [.indented steps] := by
  intro w d
  obtain ⟨text, hlays, htext⟩ := h w (d + 1)
  exact ⟨text, .indented hlays, htext⟩

theorem flatMap {l : List α} {f : α → List Step} {nodes : α → List Expr}
    (h : ∀ a ∈ l, Writes true (nodes a) (f a)) : Writes true (l.flatMap nodes) (l.flatMap f) := by
  induction l with
  | nil => exact nil
  | cons a l ih =>
    have hrest := ih fun b hb => h b (List.mem_cons_of_mem a hb)
    exact (h a List.mem_cons_self).append hrest

/-- Scripts without expressions. -/
theorem flatMap_nil {l : List α} {f : α → List Step} (h : ∀ a ∈ l, Writes true [] (f a)) :
    Writes true [] (l.flatMap f) :=
  (flatMap h).mono fun _ => finiteReals_nil

end Writes

namespace Canonical

/-- A keyword, and an expression between it and the rest of the line. -/
theorem spelled_line {e : Expr} (h : e.Legal) (start stop : String)
    (hstart : Region.code.after start.toList = .code) (hstop : Region.code.after stop.toList = .code) :
    Spelled e.nodes (start ++ expr e ++ stop).toList := by
  have hline := ((Spelled.plain hstart).text_append (spelled_expr e h)).text_append (.plain hstop)
  rwa [List.append_nil] at hline

mutual
theorem writes_instruction : ∀ i : Instruction, i.Legal → ∀ fresh, Writes fresh i.nodes (instruction i)
  | .print i es, h, fresh => by
    have hword : Spelled [] "print ".toList := .plain (by decide)
    rw [instruction, exprs_eq_map]
    exact .line (hword.text_append (.intercalate fun e he => spelled_expr e (h.2 e he)))
  | .read target, h, fresh => by
    have hword : Spelled [] "read ".toList := .plain (by decide)
    rw [instruction]
    exact .line (hword.text_append (spelled_path target h))
  | .result i value, h, fresh => by
    have hword : Spelled [] "return ".toList := .plain (by decide)
    rw [instruction]
    exact .line (hword.text_append (spelled_expr value h))
  | .evaluate e, h, fresh => by
    rw [instruction]
    exact (Writes.line (spelled_expr e h)).mono finiteReals_nodesRun.2
  | .assign i target value, h, fresh => by
    have hsign : Spelled [] " = ".toList := .plain (by decide)
    have htext := ((spelled_path target h.1).text_append hsign).text_append (spelled_expr value h.2)
    rw [List.append_nil] at htext
    rw [instruction]
    exact .line htext
  | .branch i condition body otherwise, h, fresh => by
    have hhead := spelled_line h.1 "if " " then" (by decide) (by decide)
    have hend : Writes true [] (Step.line "endif") := .line (.plain (by decide))
    rw [instruction]
    exact ((((Writes.line hhead).append (.indented (writes_block body h.2.1))).append
      (writes_alternatives otherwise h.2.2)).append hend).mono (by simp [Instruction.nodes])
  | .whileLoop i condition body, h, fresh => by
    have hword : Spelled [] "while ".toList := .plain (by decide)
    have hend : Writes true [] (Step.line "endwhile") := .line (.plain (by decide))
    rw [instruction]
    exact (((Writes.line (hword.text_append (spelled_expr condition h.1))).append
      (.indented (writes_block body h.2))).append hend).mono (by simp [Instruction.nodes])
  | .untilLoop i body condition, h, fresh => by
    have hword : Spelled [] "until ".toList := .plain (by decide)
    have hstart : Writes fresh [] (Step.line "loop") := .line (.plain (by decide))
    rw [instruction]
    exact (hstart.append (.indented (writes_block body h.1))).append
      (.line (hword.text_append (spelled_expr condition h.2)))
  | .forLoop i x first last body, h, fresh => by
    have hword : Spelled [] "for ".toList := .plain (by decide)
    have hin : Spelled [] " in ".toList := .plain (by decide)
    have hto : Spelled [] " to ".toList := .plain (by decide)
    have hdo : Spelled [] " do".toList := .plain (by decide)
    have hend : Writes true [] (Step.line "endfor") := .line (.plain (by decide))
    have hhead := (((((hword.text_append (.name h.1)).text_append hin).text_append
      (spelled_expr first h.2.1)).text_append hto).text_append (spelled_expr last h.2.2.1)).text_append hdo
    rw [instruction]
    exact (((Writes.line hhead).append (.indented (writes_block body h.2.2.2))).append hend).mono
      (by simp [Instruction.nodes])
  | .guarded i condition j, h, fresh => by
    have hhead := spelled_line h.1 "on " " do " (by decide) (by decide)
    rw [instruction]
    exact .write (by simp) hhead (writes_instruction j h.2 false)

theorem writes_alternatives : ∀ a : Alternatives, a.Legal → Writes true a.nodes (alternatives a)
  | .none, _ => by
    rw [alternatives]
    exact .nil
  | .otherwise body, h => by
    have hword : Writes true [] (Step.line "else") := .line (.plain (by decide))
    rw [alternatives]
    exact hword.append (.indented (writes_block body h))
  | .elsif i condition body next, h => by
    have hhead := spelled_line h.1 "elsif " " then" (by decide) (by decide)
    rw [alternatives]
    exact ((Writes.line hhead).append (.indented (writes_block body h.2.1))).append
      (writes_alternatives next h.2.2)

theorem writes_block : ∀ is : List Instruction, Instruction.LegalAll is →
    Writes true (Instruction.nodesAll is) (block is)
  | [], _ => by
    rw [block]
    exact .nil
  | i :: is, h => by
    rw [block]
    exact (writes_instruction i h.1 true).append (writes_block is h.2)
end

/-! ## Declarations -/

theorem spelled_type {known : List String} {t : Ty} (h : t.Legal known) :
    Spelled [] t.text.toList := by
  induction t with
  | named name => exact .name h.1
  | vector element ih =>
    have hword : Spelled [] "vector of ".toList := .plain (by decide)
    exact hword.text_append (ih h)
  | _ => exact .plain (by decide)

theorem spelled_symbol {known : List String} {s : Symbol} (h : s.Legal known) :
    Spelled [] (symbol s).toList := by
  have hcolon : Spelled [] " : ".toList := .plain (by decide)
  exact ((Spelled.name h.1).text_append hcolon).text_append (spelled_type h.2)

theorem spelled_parameter {known : List String} {p : Parameter} (h : p.symbol.Legal known) :
    Spelled [] (parameter p).toList := by
  have hmode : Spelled [] (p.mode.text ++ " ").toList := .plain (by cases p.mode <;> decide)
  exact hmode.text_append (spelled_symbol h)

theorem spelled_signature {known : List String} {r : Routine} (h : r.Legal known) :
    Spelled [] (signature r).toList := by
  have hlist : Spelled [] (", ".intercalate (r.params.map parameter)).toList :=
    (Spelled.intercalate fun p hp => spelled_parameter (h.params p hp)).mono fun _ => finiteReals_nil
  have hparams := hlist.parens
  rw [signature]
  split
  · rename_i type htype
    have hword : Spelled [] "function ".toList := .plain (by decide)
    have hcolon : Spelled [] " : ".toList := .plain (by decide)
    exact (((hword.text_append (.name h.name)).text_append hparams).text_append hcolon).text_append
      (spelled_type (h.result type htype))
  · have hword : Spelled [] "procedure ".toList := .plain (by decide)
    exact (hword.text_append (.name h.name)).text_append hparams

theorem writes_symbols {known : List String} {l : List Symbol} (h : ∀ s ∈ l, s.Legal known)
    (word : String) (hword : Spelled [] word.toList) :
    Writes true [] (l.flatMap fun s => Step.line (word ++ symbol s)) :=
  .flatMap_nil fun s hs => .line (hword.text_append (spelled_symbol (h s hs)))

theorem writes_structureDeclaration {known : List String} {s : Structure} (h : s.Legal known) :
    Writes true [] (structureDeclaration s) := by
  have hword : Spelled [] "structure ".toList := .plain (by decide)
  have hend : Writes true [] (Step.line "end") := .line (.plain (by decide))
  have hmembers : Writes true [] (s.members.flatMap fun m => Step.line (symbol m)) :=
    .flatMap_nil fun m hm => .line (spelled_symbol (h.members m hm))
  exact ((Writes.newline.append (.line (hword.text_append (.name h.name)))).append
    (.indented hmembers)).append hend

theorem writes_routine {known : List String} {r : Routine} (h : r.Legal known) :
    Writes true r.nodes (routine r) := by
  have hend : Writes true [] (Step.line "end") := .line (.plain (by decide))
  have hbody : Writes true r.nodes (block r.body) := by
    rw [Routine.nodes, ← Instruction.nodesAll_eq_flatMap]
    exact writes_block r.body (Instruction.legalAll_iff.2 h.body)
  have hlocals := writes_symbols h.locals "local " (.plain (by decide))
  have hhead : Writes true [] (.newline :: Step.line (signature r)) :=
    Writes.newline.append (.line (spelled_signature h))
  exact ((hhead.append (.indented (hlocals.append hbody))).append hend).mono (by simp)

theorem writes_program {p : Program} (h : p.Legal) : Writes true p.nodes (program p) := by
  have hword : Spelled [] "program ".toList := .plain (by decide)
  have hconstant : Spelled [] "constant ".toList := .plain (by decide)
  have hequals : Spelled [] " = ".toList := .plain (by decide)
  have hstructures : Writes true [] (p.structures.flatMap structureDeclaration) := by
    refine .flatMap_nil fun s hs => ?_
    obtain ⟨known, hlegal⟩ := h.exists_structure hs
    exact writes_structureDeclaration hlegal
  have hgap : Writes true [] (gap p) := by
    rw [gap]
    split
    · exact .nil
    · exact .newline
  have hconstants : Writes true (p.constants.flatMap (·.value.nodes)) (p.constants.flatMap fun c =>
      Step.line ("constant " ++ symbol c.symbol ++ " = " ++ expr c.value)) := by
    refine .flatMap fun c hc => .line ?_
    have hlegal := h.constants c hc
    exact ((hconstant.text_append (spelled_symbol hlegal.symbol)).text_append hequals).text_append
      (spelled_expr c.value hlegal.value)
  have hglobals := writes_symbols h.globals "global " (.plain (by decide))
  have hroutines : Writes true (p.routines.flatMap Routine.nodes) (p.routines.flatMap routine) :=
    .flatMap fun r hr => writes_routine (h.routine hr)
  have hhead : Writes true [] (Step.line ("program " ++ p.name)) :=
    .line (hword.text_append (.name h.name))
  exact (((((hhead.append hstructures).append hgap).append hconstants).append hglobals).append
    hroutines).mono (by simp [Program.nodes])

end Canonical

/-- The canonical text of a program is misspelled unless all of its reals are finite. -/
theorem Program.Legal.spelled_canonicalText {p : Program} (h : p.Legal) :
    Spelled p.nodes p.canonicalText.toList := by
  obtain ⟨text, hlays, htext⟩ := Canonical.writes_program h defaultIndentWidth 0
  rwa [canonicalText, hlays.render_eq]

/-- The canonical text of a program that was read is itself read exactly if no real in the program is
infinite. -/
theorem Program.parse_canonicalText_iff {s : String} {p : Program} (h : Program.parse s = .ok p) :
    (∃ q, Program.parse p.canonicalText = .ok q) ↔
      ∀ x, .literal (.real x) ∈ p.nodes → x.isFinite = true := by
  have hlegal := legal_of_parse h
  constructor
  · rintro ⟨q, hq⟩
    exact hlegal.spelled_canonicalText.finite fun hmis => parse_ne_ok_of_stray hmis.stray q hq
  · intro hfin
    obtain ⟨q, m, hread, -⟩ := reads_canonicalText hlegal hfin
    refine ⟨q, ?_⟩
    rw [Program.parse, Parser.read, Cursor.ofString_eq, hread]

/-- A program with the real that is written as a one, zeros, a point and a zero. -/
def powerText (zeros : Nat) : String :=
  String.ofList ("program t\nconstant c : real = 1".toList ++ List.replicate zeros '0' ++
    ".0\n".toList)

theorem Program.parse_canonicalText_iff_power : ∃ p, Program.parse (powerText 22) = .ok p ∧
    p.nodes.length = 1 ∧ ∃ q, Program.parse p.canonicalText = .ok q := by
  have hreal : (Program.parse (powerText 22)).toOption.any (fun p =>
      p.nodes.length == 1 && p.nodes.all Expr.isFinite) = true := by decide +kernel
  obtain ⟨p, hp, hnodes⟩ := exists_ok_of_any hreal
  rw [Bool.and_eq_true, beq_iff_eq, List.all_eq_true] at hnodes
  exact ⟨p, hp, hnodes.1, (parse_canonicalText_iff hp).2 fun x hx => hnodes.2 _ hx⟩

theorem Program.parse_canonicalText_infinite : ∃ p, Program.parse (powerText 309) = .ok p ∧
    ∀ q, Program.parse p.canonicalText ≠ .ok q := by
  have hfails : (Program.parse (powerText 309)).toOption.any (fun p =>
      (Program.parse p.canonicalText).toOption.isNone) = true := by decide +kernel
  obtain ⟨p, hp, hnone⟩ := exists_ok_of_any hfails
  refine ⟨p, hp, fun q hq => ?_⟩
  rw [hq] at hnone
  cases hnone

end Primer
