import Mathlib.Data.List.Induction
import Primer.Grammar.Program
import Primer.Proofs.Grammar.Instruction

/-!
What the productions for types, declarations and programs give: a program that is read is legal
(`legal_of_parse`).
-/

namespace Primer

namespace Grammar

open Primer.Parser

variable {known : List String} {n : Nat}

/-! ## Types -/

theorem gives_scalarType : Gives scalarType (Ty.Legal known) := by
  refine .choice fun p hp => ?_
  obtain ⟨t, ht, rfl⟩ := List.mem_map.1 hp
  refine .bind gives_word fun _ _ => .pure ?_
  simp only [Ty.scalars, List.mem_cons, List.not_mem_nil, or_false] at ht
  rcases ht with rfl | rfl | rfl | rfl | rfl | rfl <;> trivial

theorem gives_vectorType {p : Parser Ty} (hp : Gives p (Ty.Legal known)) :
    Gives (vectorType p) (Ty.Legal known) := by
  refine .bind gives_word fun _ _ => .bind (.expect (gives_afterSpace gives_word)) fun _ _ => ?_
  exact .bind (.expect (gives_afterSpace hp)) fun element he => .pure he

/-- The name of a structure that is not known halts, so that what is given is known. -/
theorem gives_namedType : Gives (namedType known) (Ty.Legal known) := by
  refine .bind .here fun start _ => .bind gives_ident fun x hx => ?_
  split
  case isTrue hknown => exact .pure ⟨hx, by simpa using hknown⟩
  case isFalse => exact .haltAt

/-- One level of the recursion of `type`, which goes on behind `vector` only. -/
theorem gives_typeBody {p : Parser Ty} (hp : Gives p (Ty.Legal known)) :
    Gives (scalarType <|> vectorType p <|> namedType known) (Ty.Legal known) :=
  gives_scalarType.orElse ((gives_vectorType hp).orElse gives_namedType)

theorem gives_type : Gives (type known) (Ty.Legal known) := .fix fun _ hp => gives_typeBody hp

theorem near_vectorType {p q : Parser Ty} (h : Near n p q) (hp : Gives p (Ty.Legal known)) :
    Near (n + 1) (vectorType p) (vectorType q) := by
  refine .bind_of_advances .rfl gives_word (advances_word (by decide)) fun _ => ?_
  refine .bind .rfl (.expect (gives_afterSpace gives_word)) fun _ => ?_
  exact .bind (near_afterSpace h).expect (.expect (gives_afterSpace hp)) fun _ => .rfl

theorem near_typeBody {p q : Parser Ty} (h : Near n p q) (hp : Gives p (Ty.Legal known)) :
    Near (n + 1) (scalarType <|> vectorType p <|> namedType known)
      (scalarType <|> vectorType q <|> namedType known) :=
  .orElse .rfl ((near_vectorType h hp).orElse .rfl)

/-- The recursion of `type` is never cut off. -/
theorem type_eq (known : List String) :
    type known = (scalarType <|> vectorType (type known) <|> namedType known) :=
  fix_eq (fun _ hp => gives_typeBody hp) fun _ _ _ hp _ h => near_typeBody h hp

/-! ## Declarations -/

theorem gives_symbol : Gives (symbol known) (Symbol.Legal known) := by
  refine .bind gives_ident fun x hx => .bind (.discard (.expect (gives_spaced .char))) fun _ _ => ?_
  exact .bind (.expect gives_type) fun t ht => .pure ⟨hx, ht⟩

theorem gives_structureDeclaration :
    Gives (structureDeclaration known) (Structure.Legal known) := by
  refine .bind gives_word fun _ _ => .bind (.expect (gives_afterSpace gives_ident)) fun x hx => ?_
  refine .bind (.expect gives_lineEnd) fun _ _ => ?_
  refine .bind (.many (P := Symbol.Legal known) ?_) fun members hmembers => ?_
  · exact .bind gives_symbol fun s hs => .bind (.expect gives_lineEnd) fun _ _ => .pure hs
  refine .bind (.expect gives_word) fun _ _ => .bind (.expect gives_lineEnd) fun _ _ => .pure ?_
  exact ⟨hx, hmembers⟩

theorem gives_constantDeclaration :
    Gives (constantDeclaration known) (Constant.Legal known) := by
  refine .bind gives_word fun _ _ => .bind (.expect (gives_afterSpace gives_symbol)) fun s hs => ?_
  refine .bind (.discard (.expect (gives_spaced .char))) fun _ _ => ?_
  refine .bind (.expect gives_expression) fun value hv => ?_
  exact .bind (.expect gives_lineEnd) fun _ _ => .pure ⟨hs, hv⟩

theorem gives_globalDeclaration : Gives (globalDeclaration known) (Symbol.Legal known) := by
  refine .bind gives_word fun _ _ => .bind (.expect (gives_afterSpace gives_symbol)) fun s hs => ?_
  exact .bind (.expect gives_lineEnd) fun _ _ => .pure hs

theorem gives_localDeclaration : Gives (localDeclaration known) (Symbol.Legal known) := by
  refine .bind gives_word fun _ _ => .bind (.expect (gives_afterSpace gives_symbol)) fun s hs => ?_
  exact .bind (.expect gives_lineEnd) fun _ _ => .pure hs

theorem gives_mode : Gives mode fun _ => True := by
  refine .choice fun p hp => ?_
  obtain ⟨m, -, rfl⟩ := List.mem_map.1 hp
  exact .bind gives_word fun _ _ => .pure trivial

theorem gives_parameter : Gives (parameter known) fun p => p.symbol.Legal known := by
  refine .bind (.expect gives_mode) fun mode _ => ?_
  exact .bind (.expect (gives_afterSpace gives_symbol)) fun s hs => .pure hs

theorem gives_parameters :
    Gives (parameters known) fun ps => ∀ p ∈ ps, p.symbol.Legal known := by
  refine .bind (.discard (.expect (gives_afterSpace .char))) fun _ _ => ?_
  refine .bind (P := fun ps => ∀ p ∈ ps, p.symbol.Legal known) ?_ fun ps hps => ?_
  · refine .orElse ?_ ?_
    · exact .bind (.discard (.lookAhead (gives_afterSpace .char))) fun _ _ => .pure (by simp)
    · exact (Gives.sepBy1 (gives_spaced gives_parameter) .char).mono fun _ h => h.2
  · exact .bind (.discard (.expect (gives_afterSpace .char))) fun _ _ => .pure hps

/-- Locals are declared before the instructions, and both may be missing. -/
theorem gives_routineBody :
    Gives (routineBody known) fun b => (∀ s ∈ b.1, s.Legal known) ∧ ∀ i ∈ b.2, i.Legal := by
  refine .bind (.expect gives_lineEnd) fun _ _ => ?_
  refine .bind (.many gives_localDeclaration) fun locals hlocals => ?_
  refine .bind (gives_block gives_instruction _) fun body hbody => ?_
  refine .bind (.expect gives_word) fun _ _ => .bind (.expect gives_lineEnd) fun _ _ => .pure ?_
  exact ⟨hlocals, Instruction.legalAll_iff.1 hbody⟩

theorem gives_functionDeclaration :
    Gives (functionDeclaration known) (Routine.Legal known) := by
  refine .bind gives_word fun _ _ => .bind (.expect (gives_afterSpace gives_ident)) fun x hx => ?_
  refine .bind gives_parameters fun params hparams => ?_
  refine .bind (.discard (.expect (gives_spaced .char))) fun _ _ => ?_
  refine .bind (.expect gives_type) fun result hresult => ?_
  refine .bind gives_routineBody fun b hb => .pure ?_
  exact ⟨hx, hparams, hb.1, hb.2, fun t ht => by cases ht; exact hresult⟩

theorem gives_procedureDeclaration :
    Gives (procedureDeclaration known) (Routine.Legal known) := by
  refine .bind gives_word fun _ _ => .bind (.expect (gives_afterSpace gives_ident)) fun x hx => ?_
  refine .bind gives_parameters fun params hparams => ?_
  refine .bind gives_routineBody fun b hb => .pure ?_
  exact ⟨hx, hparams, hb.1, hb.2, fun t ht => nomatch ht⟩

end Grammar

/-- A declaration that may stand where those structures are known. -/
def Declaration.Legal (known : List String) : Declaration → Prop
  | .ofStructure s => s.Legal known
  | .ofConstant c => c.Legal known
  | .ofGlobal s => s.Legal known
  | .ofRoutine r => r.Legal known

theorem Declaration.Legal.mono {known known' : List String} (hk : known ⊆ known') {d : Declaration}
    (h : d.Legal known) : d.Legal known' := by
  cases d with
  | ofStructure s => exact Structure.Legal.mono hk h
  | ofConstant c => exact Constant.Legal.mono hk h
  | ofGlobal s => exact Symbol.Legal.mono hk h
  | ofRoutine r => exact Routine.Legal.mono hk h

namespace Program

theorem structureNames_declare (p : Program) (d : Declaration) :
    (p.declare d).structureNames =
      p.structureNames ++ (Grammar.structureNames [d]) := by
  cases d with
  | ofStructure s => simp [declare, structureNames, Grammar.structureNames]
  | ofRoutine r =>
    rw [declare]
    split <;> simp [structureNames, Grammar.structureNames]
  | _ => simp [declare, structureNames, Grammar.structureNames]

theorem Legal.empty {ident : Ident} (h : LegalName ident.name) : (Program.empty ident).Legal := by
  refine ⟨h, ?_, ?_, ?_, ?_, ?_⟩ <;> simp [Program.empty]

/-- A declaration over the structures so far keeps the program legal. -/
theorem Legal.declare {p : Program} (h : p.Legal) {d : Declaration}
    (hd : d.Legal p.structureNames) : (p.declare d).Legal := by
  obtain ⟨hname, hstructures, hconstants, hglobals, hfunctions, hprocedures⟩ := h
  cases d with
  | ofStructure s =>
    have hk : p.structureNames ⊆ (p.declare (.ofStructure s)).structureNames := by
      rw [structureNames_declare]; exact List.subset_append_left _ _
    refine ⟨hname, ?_, fun c hc => (hconstants c hc).mono hk, fun g hg => (hglobals g hg).mono hk,
      fun r hr => ⟨(hfunctions r hr).1.mono hk, (hfunctions r hr).2⟩,
      fun r hr => ⟨(hprocedures r hr).1.mono hk, (hprocedures r hr).2⟩⟩
    intro before t after hsplit
    rcases List.eq_nil_or_concat' after with rfl | ⟨after, u, rfl⟩
    · obtain ⟨rfl, hst⟩ := List.append_inj' hsplit rfl
      cases hst
      exact hd
    · rw [← List.cons_append, ← List.append_assoc] at hsplit
      exact hstructures before t after (List.append_inj' hsplit rfl).1
  | ofConstant c =>
    refine ⟨hname, hstructures, fun c' hc' => ?_, hglobals, hfunctions, hprocedures⟩
    rcases List.mem_append.1 hc' with hc' | hc'
    · exact hconstants c' hc'
    · cases List.mem_singleton.1 hc'
      exact hd
  | ofGlobal s =>
    refine ⟨hname, hstructures, hconstants, fun g hg => ?_, hfunctions, hprocedures⟩
    rcases List.mem_append.1 hg with hg | hg
    · exact hglobals g hg
    · cases List.mem_singleton.1 hg
      exact hd
  | ofRoutine r =>
    rw [Program.declare]
    split
    case isTrue hr =>
      refine ⟨hname, hstructures, hconstants, hglobals, hfunctions, fun r' hr' => ?_⟩
      rcases List.mem_append.1 hr' with hr' | hr'
      · exact hprocedures r' hr'
      · cases List.mem_singleton.1 hr'
        exact ⟨hd, hr⟩
    case isFalse hr =>
      refine ⟨hname, hstructures, hconstants, hglobals, fun r' hr' => ?_, hprocedures⟩
      rcases List.mem_append.1 hr' with hr' | hr'
      · exact hfunctions r' hr'
      · cases List.mem_singleton.1 hr'
        exact ⟨hd, by simpa using hr⟩

theorem structureNames_ofDeclarations (ident : Ident) (ds : List Declaration) :
    (ofDeclarations ident ds).structureNames = Grammar.structureNames ds := by
  induction ds using List.reverseRecOn with
  | nil => rfl
  | append_singleton ds d ih =>
    have hlast : ofDeclarations ident (ds ++ [d]) = (ofDeclarations ident ds).declare d := by
      simp [ofDeclarations]
    rw [hlast, structureNames_declare, ih]
    simp [Grammar.structureNames]

end Program

namespace Grammar

open Primer.Parser

theorem gives_declaration {known : List String} :
    Gives (declaration known) (Declaration.Legal known) := by
  refine .orElse (.bind gives_structureDeclaration fun _ h => .pure h) ?_
  refine .orElse (.bind gives_constantDeclaration fun _ h => .pure h) ?_
  refine .orElse (.bind gives_globalDeclaration fun _ h => .pure h) ?_
  refine .orElse (.bind gives_functionDeclaration fun _ h => .pure h) ?_
  exact .bind gives_procedureDeclaration fun _ h => .pure h

theorem gives_declarations {ident : Ident} (h : LegalName ident.name) :
    Gives declarations fun ds => (Program.ofDeclarations ident ds).Legal := by
  have hmany := Gives.manyWith (p := fun earlier => declaration (structureNames earlier))
    (I := fun earlier => (Program.ofDeclarations ident earlier.reverse).Legal)
    (Program.Legal.empty h) fun earlier hlegal => gives_declaration.mono fun d hd => ?_
  · exact hmany.mono fun ds hds => by simpa using hds
  · have hk : structureNames earlier ⊆
        (Program.ofDeclarations ident earlier.reverse).structureNames := by
      rw [Program.structureNames_ofDeclarations]
      intro name hname
      simpa [structureNames] using hname
    have hdecl := hlegal.declare (hd.mono hk)
    simpa [Program.ofDeclarations] using hdecl

theorem gives_program : Gives program Program.Legal := by
  refine .bind gives_blank fun _ _ => .bind (.expect gives_word) fun _ _ => ?_
  refine .bind (.expect (gives_afterSpace gives_ident)) fun ident hident => ?_
  refine .bind (.expect gives_lineEnd) fun _ _ => ?_
  refine .bind (gives_declarations hident) fun ds hds => ?_
  exact .bind (.expect .atEnd) fun _ _ => .pure hds

end Grammar

/-- A text is read if the parser is done, wherever that is. -/
theorem Parser.read_eq_ok_iff {p : Parser α} {text : String} {a : α} :
    p.read text = .ok a ↔ ∃ j m, p (.ofString text) = .done a j m := by
  rw [Parser.read]
  cases p (.ofString text) with
  | done b j m => simp
  | miss _ | halt _ => simp

/-- A program that is read is legal. -/
theorem Program.legal_of_parse {text : String} {p : Program} (h : Program.parse text = .ok p) :
    p.Legal := by
  obtain ⟨j, m, hdone⟩ := Parser.read_eq_ok_iff.1 h
  exact (Grammar.gives_program hdone).2

end Primer
