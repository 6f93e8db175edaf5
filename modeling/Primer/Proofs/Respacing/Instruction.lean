import Primer.Proofs.Grammar.Instruction
import Primer.Proofs.Respacing.Expr

/-!
Instructions in two texts with the same tokens. Each starts where a token may start and ends with its
line, at the start of the next; the blocks within it begin and end at starts of lines. Where the second
text ends within a block, the word that closes the block is missing there.
-/

namespace Primer.Respacing

open Primer.Parser Primer.Grammar

variable {W : Respacing} {n : Nat}

/-- The parser answers alike from the start of a line to the start of another, or comes to the end of
the second text. -/
abbrev Lines (W : Respacing) (n : Nat) (p : Parser α) (R : α → α → Prop) : Prop :=
  Unless W.toComparison W.Ended n 0 W.Fresh p p R W.Fresh

/-- Lines up to the word that closes them, and what follows it. -/
theorem closed {p : Parser α} {R : α → α → Prop} {f g : α → Parser β} {S : β → β → Prop}
    {item w : String} {B : Cursor → Cursor → Prop} (hw : isWord w = true) (h : W.Lines n p R)
    (hf : ∀ a b, R a b → Parallel W.toComparison n 0 W.Behind (f a) (g b) S B) :
    Parallel W.toComparison n 0 W.Fresh (do let a ← p; Grammar.expect item (Grammar.word w); f a)
      (do let a ← p; Grammar.expect item (Grammar.word w); g a) S B := by
  refine h.close (fun a b hab => (closingWord hw).bind fun _ _ _ => hf a b hab) lost_of_ended ?_
  exact fun b => halts_of_ended (.bind (.expect (misses_word_nil hw)))

theorem misses_blockItem_nil {ends : List String} (hends : ∀ w ∈ ends, isWord w = true) :
    Misses (do notFollowedBy (Grammar.ahead ends); Grammar.instruction) [] := by
  have hahead : Misses (Grammar.ahead ends) [] := by
    refine .lookAhead (.choice fun p hp => ?_)
    obtain ⟨w, hw, rfl⟩ := List.mem_map.1 hp
    exact misses_word_nil (hends w hw)
  exact .bind_of_reads (.notFollowedBy hahead) fun _ _ => ⟨_, rfl⟩

theorem block (h : W.Line n instruction (W.Alike Instruction.relocate)) {ends : List String}
    (hends : ∀ w ∈ ends, isWord w = true) :
    W.Lines n (Grammar.block instruction ends) (List.Forall₂ (W.Alike Instruction.relocate)) := by
  have hitem : W.Line n (do notFollowedBy (Grammar.ahead ends); instruction)
      (W.Alike Instruction.relocate) := .bind (.notFollowedBy (ahead hends)) fun _ _ _ => h
  exact .many (.of_parallel hitem) W.amid_of_fresh (misses_of_ended (misses_blockItem_nil hends))

/-! ## Single lines -/

theorem print : W.Line n Grammar.print (W.Alike Instruction.relocate) := by
  have hcomma : W.Token n (Parser.char ',') Eq := char (by decide)
  have hexprs := expression.sepBy1 ((spaced hcomma).start W.amid_of_behind)
  refine Parallel.here.bind fun start start' hstart => (word (by decide)).bind_left fun _ _ _ => ?_
  refine (expectNext hexprs).bind fun es es' hes => ?_
  refine (W.lineEnd n _).bind fun _ _ _ => .pure ?_
  exact congrArg₂ Instruction.print (W.point _ _ hstart) (Alike.map hes)

theorem read : W.Line n Grammar.read (W.Alike Instruction.relocate) := by
  have hpath : W.Token n (Grammar.path Grammar.expression) (W.Alike Path.relocate) :=
    (path expression).shorter (Nat.le_succ n)
  refine (word (by decide)).bind_left fun _ _ _ => ?_
  refine (expectNext hpath).bind fun p q hpq => ?_
  refine (W.lineEnd n _).bind fun _ _ _ => .pure ?_
  exact congrArg Instruction.read hpq

theorem result : W.Line n Grammar.result (W.Alike Instruction.relocate) := by
  refine Parallel.here.bind fun start start' hstart => (word (by decide)).bind_left fun _ _ _ => ?_
  refine (expectNext expression).bind fun e e' he => ?_
  refine (W.lineEnd n _).bind fun _ _ _ => .pure ?_
  exact congrArg₂ Instruction.result (W.point _ _ hstart) he

theorem assignSign : W.Token n Grammar.assignSign fun _ _ => True := by
  have hsign : W.Token n (Parser.char '=') Eq := char (by decide)
  exact hsign.discard.bind_left fun _ _ _ => .notFollowedBy (hsign.start W.amid_of_behind)

theorem assign : W.Line n Grammar.assign (W.Alike Instruction.relocate) := by
  have hpath : W.Token n (Grammar.path Grammar.expression) (W.Alike Path.relocate) :=
    (path expression).shorter (Nat.le_succ n)
  refine Parallel.here.bind fun start start' hstart => hpath.bind_left fun p q hpq => ?_
  refine ((afterSpace assignSign).start W.amid_of_behind).less.bind fun _ _ _ => ?_
  refine (expectNext expression).bind fun e e' he => ?_
  refine (W.lineEnd n _).bind fun _ _ _ => .pure ?_
  simp only [Alike, Instruction.relocate, W.point _ _ hstart, hpq.eq, he.eq]

theorem evaluate : W.Line n Grammar.evaluate (W.Alike Instruction.relocate) := by
  refine expression.bind_left fun e e' he => (W.lineEnd n _).bind fun _ _ _ => .pure ?_
  exact congrArg Instruction.evaluate he

/-! ## Blocks -/

section
variable (h : W.Line n instruction (W.Alike Instruction.relocate))
include h

theorem conditionalBlock (keyword : String) :
    Unless W.toComparison W.Ended n 0 W.Behind (Grammar.conditionalBlock instruction keyword)
      (Grammar.conditionalBlock instruction keyword)
      (fun x y => W.Alike Expr.relocate x.1 y.1 ∧
        List.Forall₂ (W.Alike Instruction.relocate) x.2 y.2) W.Fresh := by
  refine .after (expectNext expression) fun e e' he => ?_
  refine .after (expectNext (word (by decide))) fun _ _ _ => .after (W.lineEnd n _) fun _ _ _ => ?_
  exact (block h (by decide)).bind_pure fun body body' hbody => ⟨he, hbody⟩

/-- The condition and the block are added to alternatives that are alike. -/
theorem elsif : Unless W.toComparison W.Ended n 1 W.Amid (Grammar.elsif instruction)
    (Grammar.elsif instruction) (fun f g => ∀ a b, W.Alike Alternatives.relocate a b →
      W.Alike Alternatives.relocate (f a) (g b)) W.Fresh := by
  refine .after .here fun start start' hstart => .after_left (word (by decide)) fun _ _ _ => ?_
  refine (conditionalBlock h _).bind_pure fun x y hxy a b hab => ?_
  simp only [Alike, Alternatives.relocate, Instruction.relocateAll_eq_map, W.point _ _ hstart, hxy.1.eq,
    Alike.map hxy.2, hab.eq]

theorem otherwise : Unless W.toComparison W.Ended n 1 W.Amid (Grammar.otherwise instruction)
    (Grammar.otherwise instruction) (W.Alike Alternatives.relocate) W.Fresh := by
  refine .after_left (word (by decide)) fun _ _ _ => .after (W.lineEnd n _) fun _ _ _ => ?_
  refine (block h (by decide)).bind_pure fun body body' hbody => ?_
  simp only [Alike, Alternatives.relocate, Instruction.relocateAll_eq_map, Alike.map hbody]

omit h in
theorem foldr_alternatives {fs gs : List (Alternatives → Alternatives)} {a b : Alternatives}
    (h : List.Forall₂ (fun f g => ∀ a b, W.Alike Alternatives.relocate a b →
      W.Alike Alternatives.relocate (f a) (g b)) fs gs) (hab : W.Alike Alternatives.relocate a b) :
    W.Alike Alternatives.relocate (fs.foldr (· ·) a) (gs.foldr (· ·) b) := by
  induction h with
  | nil => exact hab
  | cons hfg _ ih => exact hfg _ _ ih

theorem branch : W.Line (n + 1) (Grammar.branch instruction) (W.Alike Instruction.relocate) := by
  have helsif : Misses (Grammar.elsif instruction) [] :=
    .bind_of_reads .here fun _ _ => .bind (misses_word_nil (by decide))
  have hotherwise : Misses (Grammar.otherwise instruction) [] := .bind (misses_word_nil (by decide))
  refine Parallel.here.bind fun start start' hstart => (word (by decide)).bind_shorter fun _ _ _ => ?_
  refine (conditionalBlock h _).close (fun x y hxy => ?_) lost_of_ended fun x => halts_of_ended ?_
  · refine (Unless.many (elsif h) W.amid_of_fresh (misses_of_ended helsif)).close (fun fs gs hfs => ?_)
      lost_of_ended fun fs => halts_of_ended ?_
    · refine closed (by decide) (.maybe (otherwise h) W.amid_of_fresh (misses_of_ended hotherwise))
        fun a b hab => ?_
      refine (W.lineEnd n _).bind fun _ _ _ => .pure ?_
      have hfinal : W.Alike Alternatives.relocate (a.getD .none) (b.getD .none) := by
        cases hab with
        | none => rfl
        | some hab => exact hab
      simp only [Alike, Instruction.relocate, Instruction.relocateAll_eq_map, W.point _ _ hstart,
        hxy.1.eq, Alike.map hxy.2, (foldr_alternatives hfs hfinal).eq]
    · exact .bind_of_reads (.maybe_none hotherwise) fun _ _ =>
        .bind (.expect (misses_word_nil (by decide)))
  · refine .bind_of_reads (.many_nil helsif) fun _ _ => ?_
    exact .bind_of_reads (.maybe_none hotherwise) fun _ _ =>
      .bind (.expect (misses_word_nil (by decide)))

theorem whileLoop :
    W.Line (n + 1) (Grammar.whileLoop instruction) (W.Alike Instruction.relocate) := by
  refine Parallel.here.bind fun start start' hstart => (word (by decide)).bind_shorter fun _ _ _ => ?_
  refine (expectNext expression).bind fun e e' he => (W.lineEnd n _).bind fun _ _ _ => ?_
  refine closed (by decide) (block h (by decide)) fun body body' hbody => ?_
  refine (W.lineEnd n _).bind fun _ _ _ => .pure ?_
  simp only [Alike, Instruction.relocate, Instruction.relocateAll_eq_map, W.point _ _ hstart, he.eq,
    Alike.map hbody]

theorem untilLoop :
    W.Line (n + 1) (Grammar.untilLoop instruction) (W.Alike Instruction.relocate) := by
  refine Parallel.here.bind fun start start' hstart => (word (by decide)).bind_shorter fun _ _ _ => ?_
  refine (W.lineEnd n _).bind fun _ _ _ => ?_
  refine closed (by decide) (block h (by decide)) fun body body' hbody => ?_
  refine (expectNext expression).bind fun e e' he => (W.lineEnd n _).bind fun _ _ _ => .pure ?_
  simp only [Alike, Instruction.relocate, Instruction.relocateAll_eq_map, W.point _ _ hstart, he.eq,
    Alike.map hbody]

theorem forLoop : W.Line (n + 1) (Grammar.forLoop instruction) (W.Alike Instruction.relocate) := by
  refine Parallel.here.bind fun start start' hstart => (word (by decide)).bind_shorter fun _ _ _ => ?_
  refine (expectNext ident).bind fun x y hxy => ?_
  refine (expectNext (word (by decide))).bind fun _ _ _ => ?_
  refine (expectNext expression).bind fun a a' ha => ?_
  refine (expectNext (word (by decide))).bind fun _ _ _ => ?_
  refine (expectNext expression).bind fun b b' hb => ?_
  refine (expectNext (word (by decide))).bind fun _ _ _ => (W.lineEnd n _).bind fun _ _ _ => ?_
  refine closed (by decide) (block h (by decide)) fun body body' hbody => ?_
  refine (W.lineEnd n _).bind fun _ _ _ => .pure ?_
  simp only [Alike, Instruction.relocate, Instruction.relocateAll_eq_map, W.point _ _ hstart, hxy.eq,
    ha.eq, hb.eq, Alike.map hbody]

theorem guarded : W.Line (n + 1) (Grammar.guarded instruction) (W.Alike Instruction.relocate) := by
  refine Parallel.here.bind fun start start' hstart => (word (by decide)).bind_shorter fun _ _ _ => ?_
  refine (expectNext expression).bind fun e e' he => ?_
  refine (expectNext (word (by decide))).bind fun _ _ _ => ?_
  refine (expectNext h).bind fun i i' hi => .pure ?_
  simp only [Alike, Instruction.relocate, W.point _ _ hstart, he.eq, hi.eq]

end

theorem instruction : W.Line n Grammar.instruction (W.Alike Instruction.relocate) := by
  induction n with
  | zero => exact .zero
  | succ n ih =>
    rw [instruction_eq]
    refine print.orElse (read.orElse (result.orElse ((branch ih).orElse ?_)))
    refine (whileLoop ih).orElse ((untilLoop ih).orElse ((forLoop ih).orElse ?_))
    exact (guarded ih).orElse (assign.orElse evaluate)

end Primer.Respacing
