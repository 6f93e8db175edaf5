import Primer.Proofs.Places.Instruction
import Primer.Proofs.RoundTrip.Program

/-!
The places of declarations. A program that is read is made up of declarations whose items stand in the
text one after the other, and each refers only to structures that are declared before it
(`exists_declarations`). So every place in the program is that of what it names, and the places in a
declaration come in the order in which it is read (`items_of_parse`).
-/

namespace Primer

/-- Each of the declarations is legal where the structures among those before it are known. -/
def InOrder (ds : List Declaration) : Prop :=
  ∀ before d after, ds = before ++ d :: after → d.Legal (Grammar.structureNames before)

theorem InOrder.concat {ds : List Declaration} (h : InOrder ds) {d : Declaration}
    (hd : d.Legal (Grammar.structureNames ds)) : InOrder (ds ++ [d]) := by
  intro before e after hsplit
  rcases List.eq_nil_or_concat' after with rfl | ⟨after, f, rfl⟩
  · obtain ⟨rfl, hde⟩ := List.append_inj' hsplit rfl
    cases hde
    exact hd
  · rw [← List.cons_append, ← List.append_assoc] at hsplit
    exact h before e after (List.append_inj' hsplit rfl).1

theorem Descending.sublist {xs ys : List Item} (h : Descending ys) (hxs : xs.Sublist ys) : Descending xs :=
  List.Pairwise.sublist (hxs.filter _) h

/-- The item is what the text has at its place. -/
def Item.StandsIn (x : Item) (text : String) : Prop :=
  ∃ before cs rest, text.toList = before ++ cs ∧ x.Spans cs rest

/-- What stands in a text does not stand at its end. -/
theorem Item.StandsIn.position_ne_default {x : Item} {text : String} (h : x.StandsIn text) :
    x.position ≠ default := by
  obtain ⟨before, cs, rest, -, hspans⟩ := h
  intro hend
  have hlt := hspans.byteCount_lt
  rw [← hspans.place, hend] at hlt
  exact Nat.not_lt_zero _ hlt

namespace Grammar

open Primer.Parser

variable {known : List String}

attribute [local simp] Symbol.items Structure.items Constant.items Routine.items Declaration.items

theorem spells_symbol : Spells (symbol known) Symbol.items := by
  refine spells_ident.bind fun x => ?_
  refine Traces.skip (.discard (.expect (gives_spaced .char))) fun _ _ => ?_
  exact Traces.skip (.expect gives_type) fun t _ => Traces.pure (by simp)

/-- A line that declares a symbol after a keyword. -/
theorem spells_symbolLine {keyword item item' : String} :
    Spells (do
      word keyword
      let s ← expect item (afterSpace (symbol known))
      expect item' lineEnd
      return s) Symbol.items := by
  refine Traces.skip gives_word fun _ _ => ?_
  refine Spells.bind (spells_afterSpace spells_symbol).expect fun s => ?_
  exact Traces.skip (.expect gives_lineEnd) fun _ _ => Traces.pure (by simp)

theorem spells_structureDeclaration : Spells (structureDeclaration known) Structure.items := by
  refine Traces.skip gives_word fun _ _ => ?_
  refine Spells.bind (spells_afterSpace spells_ident).expect fun x => ?_
  have hmember : Spells (do
      let member ← symbol known
      expect "end of line after member" lineEnd
      return member) Symbol.items :=
    spells_symbol.bind fun s => Traces.skip (.expect gives_lineEnd) fun _ _ => Traces.pure (by simp)
  refine Traces.skip (.expect gives_lineEnd) fun _ _ => hmember.many.bind fun members => ?_
  refine Traces.skip (.expect gives_word) fun _ _ => Traces.skip (.expect gives_lineEnd) fun _ _ => ?_
  exact Traces.pure (by simp)

theorem spells_constantDeclaration : Spells (constantDeclaration known) Constant.items := by
  refine Traces.skip gives_word fun _ _ => ?_
  refine Spells.bind (spells_afterSpace spells_symbol).expect fun s => ?_
  refine Traces.skip (.discard (.expect (gives_spaced .char))) fun _ _ => ?_
  refine Spells.bind spells_expression.expect fun value => ?_
  exact Traces.skip (.expect gives_lineEnd) fun _ _ => Traces.pure (by simp)

theorem spells_globalDeclaration : Spells (globalDeclaration known) Symbol.items := spells_symbolLine

theorem spells_localDeclaration : Spells (localDeclaration known) Symbol.items := spells_symbolLine

theorem spells_parameter : Spells (parameter known) (·.symbol.items) := by
  refine Traces.skip (.expect gives_mode) fun mode _ => ?_
  exact Spells.bind (spells_afterSpace spells_symbol).expect fun s => Traces.pure (by simp)

theorem spells_parameters :
    Spells (parameters known) fun ps => ps.flatMap (·.symbol.items) := by
  refine Traces.skip (.discard (.expect (gives_afterSpace .char))) fun _ _ => ?_
  have hparams : Spells
      ((do discard <| lookAhead (afterSpace (char ')')); return []) <|>
        sepBy1 (spaced (parameter known)) (char ',')) fun ps => ps.flatMap (·.symbol.items) := by
    refine Traces.orElse ?_ (Spells.sepBy1 (spells_spaced spells_parameter) .char)
    exact Traces.skip (.discard (.lookAhead (gives_afterSpace .char))) fun _ _ => Spells.pure rfl
  refine hparams.bind fun ps => ?_
  exact Traces.skip (.discard (.expect (gives_afterSpace .char))) fun _ _ => Traces.pure (by simp)

theorem spells_routineBody : Spells (routineBody known) fun b =>
    b.1.flatMap Symbol.items ++ b.2.flatMap Instruction.items := by
  refine Traces.skip (.expect gives_lineEnd) fun _ _ => ?_
  refine spells_localDeclaration.many.bind fun locals => ?_
  refine (spells_block spells_instruction _).bind fun body => ?_
  refine Traces.skip (.expect gives_word) fun _ _ => Traces.skip (.expect gives_lineEnd) fun _ _ => ?_
  exact Traces.pure (by simp)

theorem spells_functionDeclaration : Spells (functionDeclaration known) Routine.items := by
  refine Traces.skip gives_word fun _ _ => ?_
  refine Spells.bind (spells_afterSpace spells_ident).expect fun x => ?_
  refine spells_parameters.bind fun params => ?_
  refine Traces.skip (.discard (.expect (gives_spaced .char))) fun _ _ => ?_
  refine Traces.skip (.expect gives_type) fun result _ => ?_
  exact spells_routineBody.bind fun b => Traces.pure (by simp)

theorem spells_procedureDeclaration : Spells (procedureDeclaration known) Routine.items := by
  refine Traces.skip gives_word fun _ _ => ?_
  refine Spells.bind (spells_afterSpace spells_ident).expect fun x => ?_
  refine spells_parameters.bind fun params => ?_
  exact spells_routineBody.bind fun b => Traces.pure (by simp)

theorem spells_declaration : Spells (declaration known) Declaration.items := by
  refine Traces.orElse (spells_structureDeclaration.bind fun s => Traces.pure ?_) ?_
  · simp
  refine Traces.orElse (spells_constantDeclaration.bind fun c => Traces.pure ?_) ?_
  · simp
  refine Traces.orElse (spells_globalDeclaration.bind fun s => Traces.pure ?_) ?_
  · simp
  refine Traces.orElse (spells_functionDeclaration.bind fun r => Traces.pure ?_) ?_
  · simp
  exact spells_procedureDeclaration.bind fun r => Traces.pure (by simp)

theorem traces_declarations :
    Traces declarations fun ds xs => xs = ds.flatMap Declaration.items ∧ InOrder ds := by
  -- the earlier declarations are kept with the last one first
  have hmany := Traces.manyWith (p := fun earlier => declaration (structureNames earlier))
    (I := fun earlier xs => xs = earlier.reverse.flatMap Declaration.items ∧ InOrder earlier.reverse)
    ⟨rfl, fun before d after h => by simp at h⟩ fun earlier xs hxs => ?_
  · exact hmany.mono fun ds xs hds => by simpa using hds
  · refine (Traces.and_gives spells_declaration gives_declaration).mono fun d ys hd => ?_
    obtain ⟨rfl, hlegal⟩ := hd
    have hk : structureNames earlier ⊆ structureNames earlier.reverse := by
      intro name hname
      simpa [structureNames] using hname
    rw [List.reverse_cons]
    exact ⟨by simp [hxs.1], hxs.2.concat (hlegal.mono hk)⟩

theorem traces_program : Traces program fun p xs => ∃ ds, p = .ofDeclarations p.ident ds ∧
    InOrder ds ∧ xs = .name p.ident :: ds.flatMap Declaration.items := by
  refine Traces.skip gives_blank fun _ _ => Traces.skip (.expect gives_word) fun _ _ => ?_
  refine Spells.bind (spells_afterSpace spells_ident).expect fun x => ?_
  refine Traces.skip (.expect gives_lineEnd) fun _ _ => traces_declarations.bind fun ds xs hds => ?_
  obtain ⟨rfl, horder⟩ := hds
  refine Traces.skip (.expect .atEnd) fun _ _ => Traces.pure ?_
  have hident : (Program.ofDeclarations x ds).ident = x := by rw [Program.ofDeclarations_eq]
  exact ⟨ds, by rw [hident], horder, by simp [hident]⟩

end Grammar

namespace Program

variable {text : String} {p : Program}

/-- What is read as a program are declarations, one after the other, each of which refers to structures
declared before it. -/
theorem exists_declarations (h : Program.parse text = .ok p) :
    ∃ ds, p = ofDeclarations p.ident ds ∧ InOrder ds ∧
      ∃ rest, Along text.toList (.name p.ident :: ds.flatMap Declaration.items) rest := by
  obtain ⟨j, m, hdone⟩ := Parser.read_eq_ok_iff.1 h
  obtain ⟨xs, hxs, ds, hp, horder, rfl⟩ := Grammar.traces_program hdone
  exact ⟨ds, hp, horder, _, hxs⟩

theorem mem_declarations_declare {d e : Declaration} :
    d ∈ (p.declare e).declarations ↔ d ∈ p.declarations ∨ d = e := by
  cases e with
  | ofRoutine r =>
    cases hr : r.isProcedure <;>
      simp only [declare, hr, declarations, routines, if_true, Bool.false_eq_true, if_false,
        List.map_append, List.map_cons, List.map_nil, List.mem_append, List.mem_singleton] <;>
      tauto
  | _ =>
    simp only [declare, declarations, routines, List.map_append, List.map_cons, List.map_nil,
      List.mem_append, List.mem_singleton]
    tauto

theorem mem_declarations_ofDeclarations {ident : Ident} {ds : List Declaration} {d : Declaration} :
    d ∈ (ofDeclarations ident ds).declarations ↔ d ∈ ds := by
  induction ds using List.reverseRecOn with
  | nil => simp [ofDeclarations, empty, declarations, routines]
  | append_singleton ds e ih =>
    have hlast : ofDeclarations ident (ds ++ [e]) = (ofDeclarations ident ds).declare e := by
      simp [ofDeclarations]
    rw [hlast, mem_declarations_declare, ih, List.mem_append, List.mem_singleton]

theorem items_eq (p : Program) :
    p.items = .name p.ident :: p.declarations.flatMap Declaration.items := by
  simp [items, declarations, List.flatMap_map, Declaration.items]

theorem items_subset {d : Declaration} (hd : d ∈ p.declarations) : d.items ⊆ p.items := by
  rw [items_eq]
  exact fun x hx => List.mem_cons_of_mem _ (List.mem_flatMap_of_mem hd hx)

theorem standsIn_of_parse (h : Program.parse text = .ok p) : ∀ x ∈ p.items, x.StandsIn text := by
  intro x hx
  obtain ⟨ds, hp, -, rest, halong⟩ := exists_declarations h
  rw [items_eq, hp] at hx
  simp only [List.mem_cons, List.mem_flatMap, mem_declarations_ofDeclarations] at hx
  rw [← hp] at hx
  obtain ⟨cs, next, ⟨before, hcs⟩, hspans⟩ := halong.spans x (by simpa using hx)
  exact ⟨before, cs, next, hcs.symm, hspans⟩

/-- Every item of a program stands in its text where it says, and the tokens of a declaration come in
the order of the text. -/
theorem items_of_parse (h : Program.parse text = .ok p) :
    (∀ x ∈ p.items, x.StandsIn text) ∧ ∀ d ∈ p.declarations, Descending d.items := by
  refine ⟨standsIn_of_parse h, fun d hd => ?_⟩
  obtain ⟨ds, hp, -, rest, halong⟩ := exists_declarations h
  rw [hp, mem_declarations_ofDeclarations] at hd
  have hsub : ([d].flatMap Declaration.items).Sublist (ds.flatMap Declaration.items) :=
    (List.singleton_sublist.2 hd).flatMap _
  rw [List.flatMap_singleton] at hsub
  exact halong.descending.sublist (hsub.trans (List.sublist_cons_self _ _))

/-- A program with items of every kind. -/
def tokensText : String :=
  "program t\nprocedure p(out n : real)\non not (n<3) or true do n=n*2\nend"

theorem items_of_parse_tokens : ∃ p, Program.parse tokensText = .ok p ∧
    p.items.map (fun x => (x.text, x.position.toEnd)) = [("t", 61), ("p", 49), ("n", 43), ("on", 33),
      ("not", 30), ("n", 25), ("<", 24), ("or", 20), ("n", 9), ("n", 9), ("n", 7), ("*", 6)] ∧
    (∀ x ∈ p.items, x.StandsIn tokensText) ∧ ∀ d ∈ p.declarations, Descending d.items := by
  have hitems : (match Program.parse tokensText with
      | .ok p => p.items.map (fun x => (x.text, x.position.toEnd)) ==
          [("t", 61), ("p", 49), ("n", 43), ("on", 33), ("not", 30), ("n", 25), ("<", 24),
            ("or", 20), ("n", 9), ("n", 9), ("n", 7), ("*", 6)]
      | .error _ => false) = true := by decide +kernel
  cases hp : Program.parse tokensText with
  | error e => simp only [hp, Bool.false_eq_true] at hitems
  | ok p =>
    simp only [hp, beq_iff_eq] at hitems
    exact ⟨p, rfl, hitems, items_of_parse hp⟩

end Program

end Primer
