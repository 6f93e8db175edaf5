import Primer.Proofs.Respacing.Instruction
import Primer.Proofs.RoundTrip.Program

/-!
Declarations and whole programs in two texts with the same tokens. The structures that a declaration
may refer to have the same names in both, so that the declarations answer alike one after the other.
Main statement: `Respacing.program`, by which two texts that correspond at their starts read as
programs that are equal in everything but places, or fail alike.
-/

namespace Primer.Respacing

open Primer.Parser Primer.Grammar

variable {W : Respacing} {n : Nat} {known : List String}

/-! ## Types -/

/-- Alternatives that are all words: types and modes are read so. -/
theorem choice_word {l : List α} {text : α → String} (h : ∀ a ∈ l, isWord (text a) = true) :
    W.Token n (choice (l.map fun a => do Grammar.word (text a); return a)) Eq := by
  refine .choice fun p hp => ?_
  obtain ⟨a, ha, rfl⟩ := List.mem_map.1 hp
  exact (word (h a ha)).bind_left fun _ _ _ => .pure rfl

theorem scalarType : W.Token n Grammar.scalarType Eq := choice_word (by decide)

theorem namedType : W.Token n (Grammar.namedType known) Eq := by
  refine of_place (fun cs hcs => ?_) ?_
  · refine .bind_of_reads .here fun _ _ => .bind (misses_ident_of_head ?_)
    exact head_eq_false (fun c hc => isPlain_of_isNameChar (isNameChar_of_isNameStart hc)) hcs
  · refine Parallel.here.bind fun start start' hstart => ?_
    refine (ident.start fun _ _ hij => hij.1).bind_left fun x y hxy => ?_
    rw [hxy.name_eq]
    split
    · exact .pure rfl
    · exact .haltAt hstart.2

theorem type : W.Token n (Grammar.type known) Eq := by
  induction n with
  | zero => exact .zero
  | succ n ih =>
    rw [type_eq]
    refine scalarType.orElse (.orElse ?_ namedType)
    refine (word (by decide)).bind_shorter fun _ _ _ => (expectNext (word (by decide))).bind ?_
    refine fun _ _ _ => (expectNext ih).bind fun t t' ht => .pure ?_
    rw [ht]

/-! ## Declarations -/

theorem symbol : W.Token n (Grammar.symbol known) (W.Alike Symbol.relocate) := by
  refine ident.bind_left fun x y hxy => ?_
  have hcolon : W.Token n (Parser.char ':') Eq := char (by decide)
  refine ((expect (spaced hcolon)).start W.amid_of_behind).less.discard.bind fun _ _ _ => ?_
  refine (expect type).less.bind ?_
  rintro t _ rfl
  exact .pure (congrArg (Symbol.mk · t) hxy)

theorem structureDeclaration :
    W.Line n (Grammar.structureDeclaration known) (W.Alike Structure.relocate) := by
  refine (word (by decide)).bind_left fun _ _ _ => (expectNext ident).bind fun x y hxy => ?_
  refine (W.lineEnd n _).bind fun _ _ _ => closed (by decide) (.many (R := W.Alike Symbol.relocate)
    (.of_parallel ?_) W.amid_of_fresh ?_) fun ms ms' hms => ?_
  · refine symbol.bind_left fun m m' hm => ?_
    exact (W.lineEnd n _).bind fun _ _ _ => .pure hm
  · exact misses_of_ended (.bind (.bind (misses_ident_of_head (by simp))))
  · refine (W.lineEnd n _).bind fun _ _ _ => .pure ?_
    exact congrArg₂ Structure.mk hxy (Alike.map hms)

theorem constantDeclaration :
    W.Line n (Grammar.constantDeclaration known) (W.Alike Constant.relocate) := by
  have hsign : W.Token n (Parser.char '=') Eq := char (by decide)
  refine (word (by decide)).bind_left fun _ _ _ => (expectNext symbol).bind fun s s' hs => ?_
  refine ((expect (spaced hsign)).start W.amid_of_behind).less.discard.bind fun _ _ _ => ?_
  refine (expect expression).less.bind fun e e' he => (W.lineEnd n _).bind fun _ _ _ => .pure ?_
  exact congrArg₂ Constant.mk hs he

/-- Globals and locals differ in the keyword and in what is expected behind it. -/
theorem symbolLine {keyword item item' : String} (h : isWord keyword = true) :
    W.Line n (do
      Grammar.word keyword
      let symbol ← Grammar.expect item (Grammar.afterSpace (Grammar.symbol known))
      Grammar.expect item' Grammar.lineEnd
      return symbol) (W.Alike Symbol.relocate) := by
  refine (word h).bind_left fun _ _ _ => (expectNext symbol).bind fun s s' hs => ?_
  exact (W.lineEnd n _).bind fun _ _ _ => .pure hs

theorem globalDeclaration : W.Line n (Grammar.globalDeclaration known) (W.Alike Symbol.relocate) :=
  symbolLine (by decide)

theorem localDeclaration : W.Line n (Grammar.localDeclaration known) (W.Alike Symbol.relocate) :=
  symbolLine (by decide)

theorem parameter : W.Token n (Grammar.parameter known) (W.Alike Parameter.relocate) := by
  refine (expect (choice_word (by decide))).bind_left ?_
  rintro m _ rfl
  refine (expectNext symbol).bind fun s s' hs => .pure ?_
  exact congrArg (Parameter.mk m) hs

theorem parameters :
    W.Rest n (Grammar.parameters known) (List.Forall₂ (W.Alike Parameter.relocate)) := by
  have hopen : W.Token n (Parser.char '(') Eq := char (by decide)
  exact (expectNext hopen).discard.bind fun _ _ _ => listed parameter

/-- The body ends at the start of a line, where the texts correspond again. -/
theorem routineBody : Parallel W.toComparison n 0 W.Behind (Grammar.routineBody known)
    (Grammar.routineBody known) (fun x y => List.Forall₂ (W.Alike Symbol.relocate) x.1 y.1 ∧
      List.Forall₂ (W.Alike Instruction.relocate) x.2 y.2) W.Fresh := by
  refine (W.lineEnd n _).bind fun _ _ _ => ?_
  refine (Unless.many (.of_parallel localDeclaration) W.amid_of_fresh
    (misses_of_ended (.bind (misses_word_nil (by decide))))).close (fun ls ls' hls => ?_)
    lost_of_ended fun ls => halts_of_ended ?_
  · refine closed (by decide) (block instruction (by decide)) fun body body' hbody => ?_
    exact (W.lineEnd n _).bind fun _ _ _ => .pure ⟨hls, hbody⟩
  · refine .bind_of_reads (.many_nil (misses_blockItem_nil (by decide))) fun _ _ => ?_
    exact .bind (.expect (misses_word_nil (by decide)))

theorem functionDeclaration :
    W.Line n (Grammar.functionDeclaration known) (W.Alike Routine.relocate) := by
  have hcolon : W.Token n (Parser.char ':') Eq := char (by decide)
  refine (word (by decide)).bind_left fun _ _ _ => (expectNext ident).bind fun x y hxy => ?_
  refine parameters.bind fun ps ps' hps => ?_
  refine ((expect (spaced hcolon)).start W.amid_of_behind).less.discard.bind fun _ _ _ => ?_
  refine (expect type).less.bind ?_
  rintro t _ rfl
  refine routineBody.bind fun b b' hb => .pure ?_
  simp only [Alike, Routine.relocate, hxy.eq, Alike.map hps, Alike.map hb.1, Alike.map hb.2]

theorem procedureDeclaration :
    W.Line n (Grammar.procedureDeclaration known) (W.Alike Routine.relocate) := by
  refine (word (by decide)).bind_left fun _ _ _ => (expectNext ident).bind fun x y hxy => ?_
  refine parameters.bind fun ps ps' hps => routineBody.bind fun b b' hb => .pure ?_
  simp only [Alike, Routine.relocate, hxy.eq, Alike.map hps, Alike.map hb.1, Alike.map hb.2]

/-- Each alternative starts with its own word, so that both texts take the same one. -/
theorem declaration : W.Line n (Grammar.declaration known) (W.Alike Declaration.relocate) := by
  refine .orElse ?_ (.orElse ?_ (.orElse ?_ (.orElse ?_ ?_)))
  · exact structureDeclaration.bind_left fun _ _ h => .pure (congrArg Declaration.ofStructure h)
  · exact constantDeclaration.bind_left fun _ _ h => .pure (congrArg Declaration.ofConstant h)
  · exact globalDeclaration.bind_left fun _ _ h => .pure (congrArg Declaration.ofGlobal h)
  · exact functionDeclaration.bind_left fun _ _ h => .pure (congrArg Declaration.ofRoutine h)
  · exact procedureDeclaration.bind_left fun _ _ h => .pure (congrArg Declaration.ofRoutine h)

/-- Declarations that are equal but for places declare the same structures. -/
theorem structureNames_eq {ds ds' : List Declaration}
    (h : List.Forall₂ (W.Alike Declaration.relocate) ds ds') :
    structureNames ds = structureNames ds' := by
  rw [← structureNames_map_relocate W.left ds, Alike.map h, structureNames_map_relocate]

/-! ## Programs -/

section
variable (hshort : ¬ W.Short)
include hshort

theorem amid_of_fresh' (i j : Cursor) (h : W.Fresh i j) : W.Amid i j :=
  (W.amid_of_fresh i j h).resolve_right fun h => hshort h.1

/-- The declarations read so far are alike, so that the next one is read with the same names known. -/
theorem declarations : Parallel W.toComparison n 0 W.Fresh Grammar.declarations
    Grammar.declarations (List.Forall₂ (W.Alike Declaration.relocate)) W.Fresh := by
  refine .manyWith fun ds ds' hds => ?_
  rw [structureNames_eq hds]
  exact declaration.start (amid_of_fresh' hshort)

theorem atEnd : Parallel W.toComparison n 0 W.Fresh Parser.atEnd Parser.atEnd (fun _ _ => True)
    fun i j => W.Fresh i j ∧ i.chars = [] := by
  intro i j _ hij
  have hiff := W.nil_iff hshort i j hij
  by_cases hi : i.chars = []
  · simp only [Parser.atEnd, hi, hiff.1 hi, List.isEmpty_nil, if_true]
    exact .done trivial ⟨⟨hij, hi⟩, Nat.le_refl _, Nat.le_refl _⟩
  · have hj : j.chars ≠ [] := fun hj => hi (hiff.2 hj)
    simp only [Parser.atEnd, List.isEmpty_iff, hi, hj, if_false]
    exact .miss

/-- From places where all that is blank ends alike, both texts read as programs that are equal but for
places, and are read to their ends; or they fail alike. -/
theorem program {A : Cursor → Cursor → Prop}
    (h : Parallel W.toComparison n 0 A blank blank (fun _ _ => True) W.Fresh) :
    Parallel W.toComparison n 0 A Grammar.program Grammar.program (W.Alike Program.relocate)
      fun i j => W.Fresh i j ∧ i.chars = [] := by
  refine h.bind fun _ _ _ => (closingWord (by decide)).bind fun _ _ _ => ?_
  refine (expectNext ident).bind fun x y hxy => (W.lineEnd n _).bind fun _ _ _ => ?_
  refine (declarations hshort).bind fun ds ds' hds => ?_
  refine (Parallel.expect (atEnd hshort) ?_).bind fun _ _ _ => .pure ?_
  · exact fun i j hij => W.place_behindSpace i j (.inl (amid_of_fresh' hshort i j hij))
  · rw [Alike, Program.relocate_ofDeclarations, Program.relocate_ofDeclarations, hxy.eq, Alike.map hds]

end

end Primer.Respacing
