import Primer.Proofs.Grammar.Instruction
import Primer.Proofs.Places.Expr

/-!
The places of instructions and of what stands in them. Most instructions start with a keyword, which is
where they stand; an assignment stands where its target does.
-/

namespace Primer.Grammar

open Primer.Parser

variable {x : Parser Instruction}

attribute [local simp] Instruction.items Alternatives.items

theorem spells_block (hx : Spells x Instruction.items) (ends : List String) :
    Spells (block x ends) fun is => is.flatMap Instruction.items :=
  Spells.many (Traces.skip .notFollowedBy fun _ _ => hx)

theorem spells_print : Spells print Instruction.items := by
  refine Traces.headed (heads_word (by decide)) fun start _ => ?_
  have hcomma : Gives (spaced (char ',')) (· = ',') := gives_spaced .char
  refine Spells.bind (spells_afterSpace (spells_expression.sepBy1 hcomma)).expect fun es => ?_
  exact Traces.skip (.expect gives_lineEnd) fun _ _ => Traces.pure (by simp)

theorem spells_read : Spells read Instruction.items := by
  refine Traces.skip gives_word fun _ _ => ?_
  refine Spells.bind (spells_afterSpace (spells_path spells_expression)).expect fun target => ?_
  exact Traces.skip (.expect gives_lineEnd) fun _ _ => Traces.pure (by simp)

theorem spells_result : Spells result Instruction.items := by
  refine Traces.headed (heads_word (by decide)) fun start _ => ?_
  refine Spells.bind (spells_afterSpace spells_expression).expect fun value => ?_
  exact Traces.skip (.expect gives_lineEnd) fun _ _ => Traces.pure (by simp)

theorem spells_conditionalBlock (hx : Spells x Instruction.items) (keyword : String) :
    Spells (conditionalBlock x keyword) fun cb => cb.1.items ++ Instruction.itemsAll cb.2 := by
  refine Spells.bind (spells_afterSpace spells_expression).expect fun condition => ?_
  refine Traces.skip (.expect (gives_afterSpace gives_word)) fun _ _ => ?_
  refine Traces.skip (.expect gives_lineEnd) fun _ _ => ?_
  exact (spells_block hx _).bind fun body => Traces.pure (by simp)

/-- An alternative puts its items before those of the alternatives that follow it. -/
theorem traces_elsif (hx : Spells x Instruction.items) :
    Traces (elsif x) fun f xs => ∀ next : Alternatives, (f next).items = xs ++ next.items := by
  refine Traces.headed (heads_word (by decide)) fun start _ => ?_
  refine (spells_conditionalBlock hx _).bind fun cb => Traces.pure fun next => ?_
  simp

theorem traces_elsifs (hx : Spells x Instruction.items) :
    Traces (many (elsif x)) fun fs xs =>
      ∀ next : Alternatives, (fs.foldr (· ·) next).items = xs ++ next.items := by
  have hmany := Traces.manyWith (p := fun _ => elsif x)
    (I := fun earlier xs =>
      ∀ next : Alternatives, (earlier.reverse.foldr (· ·) next).items = xs ++ next.items)
    (fun _ => rfl) fun earlier xs hxs => (traces_elsif hx).mono fun f ys hf next => ?_
  · exact hmany.mono fun fs xs hxs => by simpa using hxs
  · rw [List.reverse_cons, List.foldr_append, hxs, List.foldr_cons, List.foldr_nil, hf,
      List.append_assoc]

theorem spells_otherwise (hx : Spells x Instruction.items) :
    Spells (otherwise x) Alternatives.items := by
  refine Traces.skip gives_word fun _ _ => Traces.skip (.expect gives_lineEnd) fun _ _ => ?_
  exact (spells_block hx _).bind fun body => Traces.pure (by simp)

theorem spells_branch (hx : Spells x Instruction.items) : Spells (branch x) Instruction.items := by
  refine Traces.headed (heads_word (by decide)) fun start _ => ?_
  refine (spells_conditionalBlock hx _).bind fun cb => ?_
  refine (traces_elsifs hx).bind fun elsifs xs helsifs => ?_
  refine (Traces.maybe (spells_otherwise hx)).bind fun final ys hfinal => ?_
  refine Traces.skip (.expect gives_word) fun _ _ => Traces.skip (.expect gives_lineEnd) fun _ _ => ?_
  refine Traces.pure ?_
  rcases hfinal with ⟨rfl, rfl⟩ | ⟨a, rfl, rfl⟩ <;>
    simp [helsifs]

theorem spells_whileLoop (hx : Spells x Instruction.items) :
    Spells (whileLoop x) Instruction.items := by
  refine Traces.headed (heads_word (by decide)) fun start _ => ?_
  refine Spells.bind (spells_afterSpace spells_expression).expect fun condition => ?_
  refine Traces.skip (.expect gives_lineEnd) fun _ _ => (spells_block hx _).bind fun body => ?_
  refine Traces.skip (.expect gives_word) fun _ _ => Traces.skip (.expect gives_lineEnd) fun _ _ => ?_
  exact Traces.pure (by simp)

theorem spells_untilLoop (hx : Spells x Instruction.items) :
    Spells (untilLoop x) Instruction.items := by
  refine Traces.headed (heads_word (by decide)) fun start _ => ?_
  refine Traces.skip (.expect gives_lineEnd) fun _ _ => (spells_block hx _).bind fun body => ?_
  refine Traces.skip (.expect gives_word) fun _ _ => ?_
  refine Spells.bind (spells_afterSpace spells_expression).expect fun condition => ?_
  exact Traces.skip (.expect gives_lineEnd) fun _ _ => Traces.pure (by simp)

theorem spells_forLoop (hx : Spells x Instruction.items) :
    Spells (forLoop x) Instruction.items := by
  refine Traces.headed (heads_word (by decide)) fun start _ => ?_
  refine Spells.bind (spells_afterSpace spells_ident).expect fun counter => ?_
  refine Traces.skip (.expect (gives_afterSpace gives_word)) fun _ _ => ?_
  refine Spells.bind (spells_afterSpace spells_expression).expect fun first => ?_
  refine Traces.skip (.expect (gives_afterSpace gives_word)) fun _ _ => ?_
  refine Spells.bind (spells_afterSpace spells_expression).expect fun last => ?_
  refine Traces.skip (.expect (gives_afterSpace gives_word)) fun _ _ => ?_
  refine Traces.skip (.expect gives_lineEnd) fun _ _ => (spells_block hx _).bind fun body => ?_
  refine Traces.skip (.expect gives_word) fun _ _ => Traces.skip (.expect gives_lineEnd) fun _ _ => ?_
  exact Traces.pure (by simp)

theorem spells_guarded (hx : Spells x Instruction.items) :
    Spells (guarded x) Instruction.items := by
  refine Traces.headed (heads_word (by decide)) fun start _ => ?_
  refine Spells.bind (spells_afterSpace spells_expression).expect fun condition => ?_
  refine Traces.skip (.expect (gives_afterSpace gives_word)) fun _ _ => ?_
  refine Spells.bind (spells_afterSpace hx).expect fun i => ?_
  exact Traces.pure (by simp)

/-- An assignment is read from where its target starts. -/
theorem spells_assign : Spells assign Instruction.items := by
  intro i a j m h
  obtain ⟨start, j₁, _, _, hhere, h⟩ := done_of_bind h
  cases hhere
  obtain ⟨target, j₁, _, _, htarget, h⟩ := done_of_bind h
  obtain ⟨xs, hxs, rfl⟩ := spells_path spells_expression htarget
  have hvalue : Traces (do
      afterSpace assignSign
      let value ← expect "expression after '='" (afterSpace expression)
      expect "end of line after assignment" lineEnd
      return Instruction.assign i.position target value)
      fun a ys => .assignment target.root i.position :: (target.items ++ ys) = a.items := by
    refine Traces.skip (gives_afterSpace gives_assignSign) fun _ _ => ?_
    refine Spells.bind (spells_afterSpace spells_expression).expect fun value => ?_
    exact Traces.skip (.expect gives_lineEnd) fun _ _ => Traces.pure (by simp)
  obtain ⟨ys, hys, ha⟩ := hvalue h
  obtain ⟨hplace, rest, hroot⟩ := root_of_path htarget
  rw [← hplace] at ha
  exact ⟨_, .lead List.suffix_rfl hroot.assignment rfl (hxs.append hys), ha⟩

theorem spells_evaluate : Spells evaluate Instruction.items := by
  refine spells_expression.bind fun e => ?_
  exact Traces.skip (.expect gives_lineEnd) fun _ _ => Traces.pure (by simp)

theorem spells_instruction : Spells instruction Instruction.items := by
  refine Traces.fix fun x hx => ?_
  refine Traces.orElse spells_print (Traces.orElse spells_read (Traces.orElse spells_result ?_))
  refine Traces.orElse (spells_branch hx) (Traces.orElse (spells_whileLoop hx) ?_)
  refine Traces.orElse (spells_untilLoop hx) (Traces.orElse (spells_forLoop hx) ?_)
  exact Traces.orElse (spells_guarded hx) (Traces.orElse spells_assign spells_evaluate)

end Primer.Grammar
