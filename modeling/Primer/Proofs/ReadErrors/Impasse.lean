import Mathlib.Logic.Relation
import Primer.Grammar.Program
import Primer.Proofs.Places.Expr
import Primer.Proofs.Relayout.Region
import Primer.Proofs.RoundTrip.Declaration

/-!
A place that no reading gets past: a point that a digit follows and none comes before, in the midst of
code. What a production reads consists of single characters and of a few tokens and comments that are
read as a whole (`Pass`), and none of these reaches over such a place (`Stray.pass`). So a text that has
one is not read (`Program.parse_ne_ok_of_stray`).
-/

namespace Primer

/-! ## What is passed at once -/

/-- A character that means nothing to those around it. -/
def isLone (c : Char) : Bool := !(['.', '/', '"'].contains c)

/-- A single character, a token or a comment, which the rest of the text follows. -/
inductive Pass : List Char → List Char → Prop where
  | lone : isLone c = true → Pass (c :: rest) rest
  | divide : Uncommented rest → Pass ('/' :: rest) rest
  | member : (∃ c ∈ rest.head?, isNameStart c = true) → Pass ('.' :: rest) rest
  /-- A number up to its point. -/
  | point : ds ≠ [] → (∀ c ∈ ds, c.isDigit = true) → Pass (ds ++ '.' :: rest) rest
  | string : LegalText text → Pass ('"' :: (text ++ '"' :: rest)) rest
  | block : afterBlock? cs = some rest → Pass ('/' :: '*' :: cs) rest
  | remark : Pass ('/' :: '/' :: cs) (cs.dropWhile isLineChar)

theorem passes_lone {cs : List Char} (h : ∀ c ∈ cs, isLone c = true) (rest : List Char) :
    Relation.ReflTransGen Pass (cs ++ rest) rest := by
  induction cs with
  | nil => exact .refl
  | cons c cs ih =>
    rw [List.forall_mem_cons] at h
    exact .head (.lone h.1) (ih h.2)

theorem isLone_of_isNameChar {c : Char} (h : isNameChar c = true) : isLone c = true := by
  rw [isLone, Bool.not_eq_true', Bool.eq_false_iff]
  intro hmem
  simp only [List.contains_cons, List.contains_nil, Bool.or_eq_true, beq_iff_eq, Bool.or_false] at hmem
  rcases hmem with rfl | rfl | rfl <;> cases h

theorem isLone_of_isDigit {c : Char} (h : c.isDigit = true) : isLone c = true :=
  isLone_of_isNameChar (by simp [isNameChar, Char.isAlphanum, h])

theorem Piece.pass {lines : Bool} {cs rest : List Char} (h : Piece lines cs rest) : Pass cs rest := by
  cases h with
  | block h => exact .block h
  | remark => exact .remark
  | @space c _ h =>
    refine .lone ?_
    simp only [isInlineSpace, Bool.or_eq_true, beq_iff_eq] at h
    rcases h with (rfl | rfl) | rfl <;> decide
  | newline => exact .lone (by decide)

theorem passes_skipBlank (lines : Bool) (cs : List Char) :
    Relation.ReflTransGen Pass cs (skipBlank lines cs) := by
  induction cs using skipBlank_induction lines with
  | piece cs rest h ih =>
    rw [h.skipBlank_eq]
    exact .head h.pass ih
  | none cs h => rw [h.skipBlank_eq]

/-! ## What productions read -/

namespace Parser

/-- What the parser reads is passed piece by piece. -/
def Passes (p : Parser α) : Prop :=
  ∀ ⦃i a j m⦄, p i = .done a j m → Relation.ReflTransGen Pass i.chars j.chars

namespace Passes

variable {p q : Parser α} {f : α → Parser β}

theorem pure {a : α} : Passes (pure a) := by
  intro i b j m h
  rw [pure_apply] at h
  cases h
  exact .refl

theorem bind (hp : Passes p) (hf : ∀ a, Passes (f a)) : Passes (p >>= f) := by
  intro i b k m h
  obtain ⟨a, j, _, _, hpi, hfa⟩ := done_of_bind h
  exact (hp hpi).trans (hf a hfa)

theorem discard (h : Passes p) : Passes (discard p) := h.bind fun _ => .pure

theorem orElse (hp : Passes p) (hq : Passes q) : Passes (p <|> q) := by
  intro i a j m h
  rcases done_of_orElse h with h | ⟨_, h⟩
  · exact hp h
  · exact hq h

theorem choice {ps : List (Parser α)} (h : ∀ p ∈ ps, Passes p) : Passes (choice ps) := by
  intro i a j m hdone
  obtain ⟨p, hp, _, hpi⟩ := done_of_choice hdone
  exact h p hp hpi

theorem here : Passes here := by
  intro i a j m h
  cases h
  exact .refl

theorem haltAt {k : Cursor} {cause : ReadError.Cause} : Passes (haltAt k cause : Parser α) := by
  intro i a j m h
  cases h

theorem missAt {k : Cursor} : Passes (missAt k : Parser α) := by
  intro i a j m h
  cases h

theorem satisfy {t : Char → Bool} (ht : ∀ c, t c = true → isLone c = true) : Passes (satisfy t) := by
  intro i c j m h
  rw [done_of_satisfy h]
  exact .single (.lone (ht c (Gives.satisfy h).2))

theorem char {c : Char} (hc : isLone c = true) : Passes (char c) :=
  satisfy fun d hd => by rwa [beq_iff_eq.1 hd]

theorem text {s : String} (hs : s.toList.all isLone = true) : Passes (text s) := by
  intro i u j m h
  rw [done_of_text h]
  exact passes_lone (List.all_eq_true.1 hs) j.chars

theorem takeWhile {t : Char → Bool} (ht : ∀ c, t c = true → isLone c = true) :
    Passes (takeWhile t) := by
  intro i cs j m h
  rw [(done_of_takeWhile h).1]
  exact passes_lone (fun c hc => ht c ((Gives.takeWhile h).2 c hc)) j.chars

theorem atEnd : Passes atEnd := by
  intro i u j m h
  obtain ⟨rfl, -⟩ := done_of_atEnd h
  exact .refl

theorem lookAhead : Passes (lookAhead p) := by
  intro i a j m h
  simp only [Parser.lookAhead] at h
  split at h
  · cases h
    exact .refl
  case h_2 hne => exact absurd h (hne a j m)

theorem notFollowedBy : Passes (notFollowedBy p) := by
  intro i a j m h
  simp only [Parser.notFollowedBy] at h
  split at h
  · cases h
  · cases h
    exact .refl
  · cases h

theorem maybe (hp : Passes p) : Passes (maybe p) := by
  intro i o j m h
  simp only [Parser.maybe] at h
  split at h
  case h_1 hpi =>
    cases h
    exact hp hpi
  case h_2 =>
    cases h
    exact .refl
  case h_3 => cases h

theorem expect {item : String} (hp : Passes p) : Passes (Grammar.expect item p) :=
  fun _ _ _ _ h => hp (Grammar.done_of_expect h)

theorem manyWith {p : List α → Parser α} (hp : ∀ earlier, Passes (p earlier)) :
    Passes (manyWith p) := by
  have go : ∀ n earlier, Passes (manyWithin p n earlier) := by
    intro n
    induction n with
    | zero =>
      intro earlier i as j m h
      cases h
    | succ n ih =>
      intro earlier i as j m h
      simp only [manyWithin] at h
      split at h
      case h_1 a k m' hpi =>
        split at h
        · cases h
        · cases hrest : manyWithin p n (a :: earlier) k with
          | done bs l m'' =>
            rw [hrest] at h
            cases h
            exact (hp earlier hpi).trans (ih (a :: earlier) hrest)
          | miss _ | halt _ => rw [hrest] at h; cases h
      case h_2 =>
        cases h
        exact .refl
      case h_3 => cases h
  exact fun i _ _ _ h => go (i.bytes + 1) [] h

theorem many (hp : Passes p) : Passes (many p) := manyWith fun _ => hp

theorem sepBy1 {separator : Parser β} (hp : Passes p) (hseparator : Passes separator) :
    Passes (sepBy1 p separator) :=
  hp.bind fun _ => (many (hseparator.bind fun _ => hp)).bind fun _ => .pure

theorem fix {f : Parser α → Parser α} (hf : ∀ p, Passes p → Passes (f p)) : Passes (fix f) := by
  have hwithin : ∀ n, Passes (fixWithin f n) := by
    intro n
    induction n with
    | zero =>
      intro i a j m h
      cases h
    | succ n ih => exact hf _ ih
  exact fun i _ _ _ h => hwithin (i.bytes + 1) h

/-- A parser that always ends in the same place. -/
theorem of_reads {rest : List Char → List Char} {Q : α → Prop} (h : ∀ cs, Reads p cs (rest cs) Q)
    (hrest : ∀ cs, Relation.ReflTransGen Pass cs (rest cs)) : Passes p := by
  intro i a j m hp
  obtain ⟨b, m', hdone, -⟩ := h i.chars
  rw [Cursor.ofChars_chars, hp] at hdone
  cases hdone
  exact hrest i.chars

end Passes

end Parser

namespace Grammar

open Primer.Parser

/-! ### Space, words and names -/

theorem passes_space : Passes space := .of_reads reads_space_skip (passes_skipBlank false)

theorem passes_blank : Passes blank := .of_reads reads_blank_skip (passes_skipBlank true)

theorem passes_lineComment : Passes lineComment := by
  intro i a j m h
  obtain ⟨_, k, _, _, htext, -⟩ := done_of_bind h
  have hi : i.chars = '/' :: '/' :: k.chars := done_of_text htext
  have hread : Reads lineComment ('/' :: '/' :: k.chars) (k.chars.dropWhile isLineChar) fun _ => True :=
    reads_lineComment
  obtain ⟨b, m', hdone, -⟩ := hread
  rw [← hi, Cursor.ofChars_chars, h] at hdone
  cases hdone
  rw [hi]
  exact .single .remark

theorem passes_lineEnd : Passes lineEnd := by
  refine .bind passes_space fun _ => .bind (.discard (.maybe passes_lineComment)) fun _ => ?_
  exact .bind (.orElse (.discard (.char (by decide))) .atEnd) fun _ => passes_blank

theorem passes_afterSpace {p : Parser α} (h : Passes p) : Passes (afterSpace p) :=
  .bind passes_space fun _ => h

theorem passes_spaced {p : Parser α} (h : Passes p) : Passes (spaced p) :=
  .bind passes_space fun _ => .bind h fun _ => .bind passes_space fun _ => .pure

theorem passes_word {w : String} (hw : isWord w = true) : Passes (word w) := by
  refine .bind (.text (List.all_eq_true.2 fun c hc => ?_)) fun _ => .notFollowedBy
  exact isLone_of_isNameChar (isNameChar_of_isWord hw c hc)

theorem passes_ident : Passes ident := by
  refine .bind .here fun _ => .bind (.bind (.satisfy ?_) fun _ => .bind (.takeWhile ?_) fun _ => .pure) ?_
  · exact fun c hc => isLone_of_isNameChar (isNameChar_of_isNameStart hc)
  · exact fun c hc => isLone_of_isNameChar hc
  · intro name
    split
    · exact .missAt
    · split
      · exact .haltAt
      · exact .pure

/-- A name starts with a character that can start one. -/
theorem head_of_ident {x : Ident} {i j : Cursor} {m : Mark} (h : ident i = .done x j m) :
    ∃ c ∈ i.chars.head?, isNameStart c = true := by
  obtain ⟨c, hc, hstart⟩ := (gives_ident h).2.start
  have htext : i.chars = x.name.toList ++ j.chars := (done_of_ident h).2.text
  refine ⟨c, ?_, hstart⟩
  rw [htext, List.head?_append, Option.mem_def.1 hc]
  rfl

/-! ### Literals -/

theorem passes_string : Passes string := by
  intro i v j m h
  obtain ⟨text, rfl, hi⟩ := exists_text_of_string h
  rw [hi]
  exact .single (.string (gives_string h).2)

theorem passes_sign : Passes sign := by
  refine .bind (.maybe (.satisfy fun c hc => ?_)) fun _ => .pure
  simp only [List.contains_cons, List.contains_nil, Bool.or_eq_true, beq_iff_eq, Bool.or_false] at hc
  rcases hc with rfl | rfl <;> decide

theorem done_of_digits {ds : List Char} {i j : Cursor} {m : Mark} (h : digits i = .done ds j m) :
    i.chars = ds ++ j.chars ∧ ds ≠ [] ∧ ∀ c ∈ ds, c.isDigit = true := by
  refine ⟨?_, (Gives.takeWhile1 h).2⟩
  simp only [digits, takeWhile1] at h
  split at h
  · cases h
  · cases h
    exact (List.prefix_iff_eq_append.1 (List.takeWhile_prefix _)).symm

theorem passes_digits : Passes digits := by
  intro i ds j m h
  obtain ⟨hi, -, hds⟩ := done_of_digits h
  rw [hi]
  exact passes_lone (fun c hc => isLone_of_isDigit (hds c hc)) j.chars

theorem passes_real : Passes real := by
  refine .bind passes_sign fun negative => ?_
  intro i v j m h
  obtain ⟨ds, k, _, _, hwhole, h⟩ := done_of_bind h
  obtain ⟨_, l, _, _, hpoint, h⟩ := done_of_bind h
  obtain ⟨c, _, _, _, hc, hpoint⟩ := done_of_bind hpoint
  cases hpoint
  obtain rfl : c = '.' := (Gives.char hc).2
  obtain ⟨hi, hne, hds⟩ := done_of_digits hwhole
  rw [hi, done_of_satisfy hc]
  have hrest : Passes (do
      let fraction ← digits
      notFollowedBy (char '.')
      return Literal.real ⟨negative, Binary64.ofDecimal (Decimal.ofParts ds fraction)⟩) :=
    .bind passes_digits fun _ => .bind .notFollowedBy fun _ => .pure
  exact .head (.point hne hds) (hrest h)

theorem passes_integer : Passes integer := by
  refine .bind .here fun _ => .bind passes_sign fun negative => .bind passes_digits fun ds => ?_
  cases hvalue : Literal.ofInt? (if negative then -(ofDigits ds : Int) else ofDigits ds) with
  | some v =>
    simp only [hvalue]
    exact .pure
  | none =>
    simp only [hvalue]
    exact .haltAt

theorem passes_literal : Passes literal := by
  refine passes_string.orElse (passes_real.orElse (passes_integer.orElse (.orElse ?_ ?_)))
  · exact .bind (passes_word (by decide)) fun _ => .pure
  · exact .bind (passes_word (by decide)) fun _ => .pure

/-! ### Expressions -/

section
variable {x : Parser Expr} (hx : Passes x)
include hx

theorem passes_callArguments : Passes (callArguments x) := by
  refine .bind (.discard (.char (by decide))) fun _ => .bind (.orElse ?_ ?_) fun _ => ?_
  · exact .bind (.discard .lookAhead) fun _ => .pure
  · exact .sepBy1 (passes_spaced hx) (.char (by decide))
  · exact .bind (.discard (.expect (passes_afterSpace (.char (by decide))))) fun _ => .pure

/-- An expression between brackets. -/
theorem passes_bracketed {start stop : Char} {item item' : String} (hstart : isLone start = true)
    (hstop : isLone stop = true) : Passes (do
      discard <| char start
      let e ← expect item (spaced x)
      discard <| expect item' (char stop)
      return e) := by
  refine .bind (.discard (.char hstart)) fun _ => .bind (.expect (passes_spaced hx)) fun _ => ?_
  exact .bind (.discard (.expect (.char hstop))) fun _ => .pure

theorem passes_segment : Passes (segment x) := by
  refine .bind passes_ident fun _ => .bind (.maybe (passes_callArguments hx)) fun _ => ?_
  exact .bind (.many (passes_bracketed hx (by decide) (by decide))) fun _ => .pure

/-- A point is read only before a name. -/
theorem passes_member {item : String} : Passes (do
    discard <| char '.'
    expect item (segment x)) := by
  intro i s j m h
  obtain ⟨_, k, _, _, hpoint, h⟩ := done_of_bind h
  obtain ⟨c, _, _, _, hc, hpoint⟩ := done_of_bind hpoint
  cases hpoint
  obtain rfl : c = '.' := (Gives.char hc).2
  obtain ⟨_, _, _, _, hident, -⟩ := done_of_bind (done_of_expect h)
  rw [done_of_satisfy hc]
  exact .head (.member (head_of_ident hident)) (passes_segment hx (done_of_expect h))

theorem passes_path : Passes (path x) :=
  .bind (passes_segment hx) fun _ => .bind (.many (passes_member hx)) fun _ => .pure

theorem passes_value : Passes (value x) :=
  .orElse (.bind passes_literal fun _ => .pure) (.bind (passes_path hx) fun _ => .pure)

theorem passes_operand : Passes (operand x) := by
  refine .fix fun p hp => .orElse ?_ ((passes_bracketed hx (by decide) (by decide)).orElse (passes_value hx))
  refine .bind .here fun _ => .bind (passes_word (by decide)) fun _ => ?_
  exact .bind (.expect (passes_afterSpace hp)) fun _ => .pure

omit hx in
theorem passes_operatorSign (o : Operator) : Passes (operatorSign o) := by
  cases o with
  | divide =>
    intro i u j m h
    obtain ⟨_, k, _, _, htext, hend⟩ := done_of_bind h
    obtain ⟨rfl, hhead⟩ := done_of_notFollowedBy hend
    have hi : i.chars = '/' :: j.chars := done_of_text htext
    rw [hi]
    refine .single (.divide fun c hc => ?_)
    simpa [not_or] using hhead c hc
  | and | or => exact passes_word (by decide)
  | _ => exact .text (by decide)

theorem passes_link : Passes (link x) := by
  have hoperator : Passes operator := by
    refine .choice fun p hp => ?_
    obtain ⟨o, -, rfl⟩ := List.mem_map.1 hp
    exact .bind (passes_operatorSign o) fun _ => .pure
  refine .bind passes_space fun _ => .bind .here fun _ => .bind hoperator fun _ => ?_
  exact .bind (.expect (passes_afterSpace (passes_operand hx))) fun _ => .pure

end

theorem passes_expression : Passes expression :=
  .fix fun _ hx => .bind (passes_operand hx) fun _ => .bind (.many (passes_link hx)) fun _ => .pure

/-! ### Instructions -/

/-- An item after space, with what follows it. -/
theorem passes_item {p : Parser α} {f : α → Parser β} {item : String} (hp : Passes p)
    (hf : ∀ a, Passes (f a)) : Passes (expect item (afterSpace p) >>= f) :=
  .bind (.expect (passes_afterSpace hp)) hf

/-- The end of a line, with what follows it. -/
theorem passes_line {f : Unit → Parser β} {item : String} (hf : ∀ a, Passes (f a)) :
    Passes (expect item lineEnd >>= f) := .bind (.expect passes_lineEnd) hf

/-- A word that must come next, with what follows it. -/
theorem passes_close {f : Unit → Parser β} {item w : String} (hw : isWord w = true)
    (hf : ∀ a, Passes (f a)) : Passes (expect item (word w) >>= f) :=
  .bind (.expect (passes_word hw)) hf

theorem passes_print : Passes print := by
  refine .bind .here fun _ => .bind (passes_word (by decide)) fun _ => ?_
  refine passes_item (.sepBy1 passes_expression (passes_spaced (.char (by decide)))) fun _ => ?_
  exact passes_line fun _ => .pure

theorem passes_read : Passes read := by
  refine .bind (passes_word (by decide)) fun _ => passes_item (passes_path passes_expression) fun _ => ?_
  exact passes_line fun _ => .pure

theorem passes_result : Passes result := by
  refine .bind .here fun _ => .bind (passes_word (by decide)) fun _ => ?_
  exact passes_item passes_expression fun _ => passes_line fun _ => .pure

theorem passes_assign : Passes assign := by
  refine .bind .here fun _ => .bind (passes_path passes_expression) fun _ => ?_
  refine .bind (passes_afterSpace (.bind (.discard (.char (by decide))) fun _ => .notFollowedBy)) fun _ => ?_
  exact passes_item passes_expression fun _ => passes_line fun _ => .pure

theorem passes_evaluate : Passes evaluate :=
  .bind passes_expression fun _ => passes_line fun _ => .pure

section
variable {x : Parser Instruction} (hx : Passes x)
include hx

theorem passes_block (ends : List String) : Passes (block x ends) :=
  .many (.bind .notFollowedBy fun _ => hx)

theorem passes_conditionalBlock (keyword : String) : Passes (conditionalBlock x keyword) := by
  refine passes_item passes_expression fun _ => passes_item (passes_word (by decide)) fun _ => ?_
  exact passes_line fun _ => .bind (passes_block hx _) fun _ => .pure

theorem passes_branch : Passes (branch x) := by
  refine .bind .here fun _ => .bind (passes_word (by decide)) fun _ => ?_
  refine .bind (passes_conditionalBlock hx _) fun _ => ?_
  refine .bind (.many ?_) fun _ => .bind (.maybe ?_) fun _ => ?_
  · refine .bind .here fun _ => .bind (passes_word (by decide)) fun _ => ?_
    exact .bind (passes_conditionalBlock hx _) fun _ => .pure
  · refine .bind (passes_word (by decide)) fun _ => passes_line fun _ => ?_
    exact .bind (passes_block hx _) fun _ => .pure
  · exact passes_close (by decide) fun _ => passes_line fun _ => .pure

theorem passes_whileLoop : Passes (whileLoop x) := by
  refine .bind .here fun _ => .bind (passes_word (by decide)) fun _ => ?_
  refine passes_item passes_expression fun _ => passes_line fun _ => .bind (passes_block hx _) fun _ => ?_
  exact passes_close (by decide) fun _ => passes_line fun _ => .pure

theorem passes_untilLoop : Passes (untilLoop x) := by
  refine .bind .here fun _ => .bind (passes_word (by decide)) fun _ => passes_line fun _ => ?_
  refine .bind (passes_block hx _) fun _ => passes_close (by decide) fun _ => ?_
  exact passes_item passes_expression fun _ => passes_line fun _ => .pure

theorem passes_forLoop : Passes (forLoop x) := by
  refine .bind .here fun _ => .bind (passes_word (by decide)) fun _ => passes_item passes_ident fun _ => ?_
  refine passes_item (passes_word (by decide)) fun _ => passes_item passes_expression fun _ => ?_
  refine passes_item (passes_word (by decide)) fun _ => passes_item passes_expression fun _ => ?_
  refine passes_item (passes_word (by decide)) fun _ => passes_line fun _ => ?_
  refine .bind (passes_block hx _) fun _ => ?_
  exact passes_close (by decide) fun _ => passes_line fun _ => .pure

theorem passes_guarded : Passes (guarded x) := by
  refine .bind .here fun _ => .bind (passes_word (by decide)) fun _ => ?_
  refine passes_item passes_expression fun _ => passes_item (passes_word (by decide)) fun _ => ?_
  exact passes_item hx fun _ => .pure

end

theorem passes_instruction : Passes instruction := by
  refine .fix fun _ hx => passes_print.orElse (passes_read.orElse (passes_result.orElse ?_))
  refine (passes_branch hx).orElse ((passes_whileLoop hx).orElse ((passes_untilLoop hx).orElse ?_))
  refine (passes_forLoop hx).orElse ((passes_guarded hx).orElse ?_)
  exact passes_assign.orElse passes_evaluate

/-! ### Declarations -/

section
variable {known : List String}

theorem passes_type : Passes (type known) := by
  refine .fix fun p hp => .orElse (.choice fun q hq => ?_) (.orElse ?_ ?_)
  · obtain ⟨t, ht, rfl⟩ := List.mem_map.1 hq
    exact .bind (passes_word (isWord_of_mem_scalars ht)) fun _ => .pure
  · refine .bind (passes_word (by decide)) fun _ => passes_item (passes_word (by decide)) fun _ => ?_
    exact passes_item hp fun _ => .pure
  · refine .bind .here fun _ => .bind passes_ident fun _ => ?_
    split
    · exact .pure
    · exact .haltAt

theorem passes_symbol : Passes (symbol known) := by
  refine .bind passes_ident fun _ => ?_
  refine .bind (.discard (.expect (passes_spaced (.char (by decide))))) fun _ => ?_
  exact .bind (.expect passes_type) fun _ => .pure

theorem passes_structureDeclaration : Passes (structureDeclaration known) := by
  refine .bind (passes_word (by decide)) fun _ => passes_item passes_ident fun _ => passes_line fun _ => ?_
  refine .bind (.many ?_) fun _ => passes_close (by decide) fun _ => passes_line fun _ => .pure
  exact .bind passes_symbol fun _ => passes_line fun _ => .pure

theorem passes_constantDeclaration : Passes (constantDeclaration known) := by
  refine .bind (passes_word (by decide)) fun _ => passes_item passes_symbol fun _ => ?_
  refine .bind (.discard (.expect (passes_spaced (.char (by decide))))) fun _ => ?_
  exact .bind (.expect passes_expression) fun _ => passes_line fun _ => .pure

/-- A line with a keyword and a symbol. -/
theorem passes_symbolLine {keyword item item' : String} (hw : isWord keyword = true) :
    Passes (do
      word keyword
      let s ← expect item (afterSpace (symbol known))
      expect item' lineEnd
      return s) :=
  .bind (passes_word hw) fun _ => passes_item passes_symbol fun _ => passes_line fun _ => .pure

theorem passes_parameter : Passes (parameter known) := by
  have hwords : ∀ m ∈ Mode.all, isWord m.text = true := by decide
  refine .bind (.expect (.choice fun p hp => ?_)) fun _ => passes_item passes_symbol fun _ => .pure
  obtain ⟨m, hm, rfl⟩ := List.mem_map.1 hp
  exact .bind (passes_word (hwords m hm)) fun _ => .pure

theorem passes_parameters : Passes (parameters known) := by
  refine .bind (.discard (.expect (passes_afterSpace (.char (by decide))))) fun _ => ?_
  refine .bind (.orElse ?_ (.sepBy1 (passes_spaced passes_parameter) (.char (by decide)))) fun _ => ?_
  · exact .bind (.discard .lookAhead) fun _ => .pure
  · exact .bind (.discard (.expect (passes_afterSpace (.char (by decide))))) fun _ => .pure

theorem passes_routineBody : Passes (routineBody known) := by
  refine passes_line fun _ => .bind (.many (passes_symbolLine (by decide))) fun _ => ?_
  refine .bind (passes_block passes_instruction _) fun _ => ?_
  exact passes_close (by decide) fun _ => passes_line fun _ => .pure

theorem passes_declaration : Passes (declaration known) := by
  refine .orElse (.bind passes_structureDeclaration fun _ => .pure) ?_
  refine .orElse (.bind passes_constantDeclaration fun _ => .pure) ?_
  refine .orElse (.bind (passes_symbolLine (by decide)) fun _ => .pure) (.orElse ?_ ?_)
  · refine .bind (.bind (passes_word (by decide)) fun _ => passes_item passes_ident fun _ => ?_) fun _ => .pure
    refine .bind passes_parameters fun _ => ?_
    refine .bind (.discard (.expect (passes_spaced (.char (by decide))))) fun _ => ?_
    exact .bind (.expect passes_type) fun _ => .bind passes_routineBody fun _ => .pure
  · refine .bind (.bind (passes_word (by decide)) fun _ => passes_item passes_ident fun _ => ?_) fun _ => .pure
    exact .bind passes_parameters fun _ => .bind passes_routineBody fun _ => .pure

end

theorem passes_program : Passes program := by
  refine .bind passes_blank fun _ => passes_close (by decide) fun _ => passes_item passes_ident fun _ => ?_
  refine passes_line fun _ => .bind (.manyWith fun _ => passes_declaration) fun _ => ?_
  exact .bind (.expect .atEnd) fun _ => .pure

theorem chars_of_program {p : Program} {i j : Cursor} {m : Mark} (h : program i = .done p j m) :
    j.chars = [] := by
  obtain ⟨_, _, _, _, -, h⟩ := done_of_bind h
  obtain ⟨_, _, _, _, -, h⟩ := done_of_bind h
  obtain ⟨_, _, _, _, -, h⟩ := done_of_bind h
  obtain ⟨_, _, _, _, -, h⟩ := done_of_bind h
  obtain ⟨_, _, _, _, -, h⟩ := done_of_bind h
  obtain ⟨_, k, _, _, hend, h⟩ := done_of_bind h
  cases h
  obtain ⟨rfl, hnil⟩ := done_of_atEnd (done_of_expect hend)
  exact hnil

end Grammar

/-! ## The impasse -/

namespace Region

theorem after_append (r : Region) (cs ds : List Char) : r.after (cs ++ ds) = (r.after cs).after ds :=
  List.foldl_append

theorem next_quoted {c : Char} (hc : c ∉ ['\\', '"', '\r', '\n']) : quoted.next c = quoted := by
  simp only [List.mem_cons, List.not_mem_nil, or_false, not_or] at hc
  rw [next, if_neg hc.2.1, if_neg hc.1]

theorem after_legalText {cs : List Char} (h : LegalText cs) : quoted.after cs = quoted :=
  h.foldl_eq (fun _ => next_quoted) rfl fun _ => rfl

theorem quoted_after_ne_code {cs : List Char} (h : LegalText cs) {before after : List Char}
    (hcs : cs = before ++ after) : quoted.after before ≠ code := by
  rcases h.foldl_within (fun _ => next_quoted) rfl (fun _ => rfl) hcs with hinside | hescaped
  · rw [Region.after, hinside]
    decide
  · rw [Region.after, hescaped]
    decide

end Region

/-- What may stand before a point that no number has: code that ends with no digit. -/
structure Halfway (w : List Char) : Prop where
  code : Region.code.after w = .code
  last : ∀ c ∈ w.getLast?, c.isDigit = false

theorem Halfway.of_suffix {v w : List Char} (h : Halfway w) (hv : v <:+ w)
    (hcode : Region.code.after v = .code) : Halfway v := by
  refine ⟨hcode, fun c hc => h.last c ?_⟩
  obtain ⟨pre, rfl⟩ := hv
  have hne : v ≠ [] := by
    rintro rfl
    cases hc
  rwa [List.getLast?_append_of_ne_nil pre hne]

namespace Halfway

variable {c : Char} {w z ds text rest : List Char}

theorem tail (h : Halfway (c :: w)) (hslash : c ≠ '/') (hquote : c ≠ '"') : Halfway w := by
  have hcode := h.code
  rw [Region.after_cons, Region.next_code hslash hquote] at hcode
  exact h.of_suffix (List.suffix_cons c w) hcode

theorem divide (h : Halfway ('/' :: w)) (hw : Uncommented (w ++ z)) : Halfway w := by
  have hslash : Region.slash.after w = .code := h.code
  have hne : w ≠ [] := by
    rintro rfl
    cases hslash
  have hnext : Uncommented w := by
    intro c hc
    exact hw c (by rw [List.head?_append, Option.mem_def.1 hc]; rfl)
  rw [Region.after_slash hne hnext] at hslash
  exact h.of_suffix (List.suffix_cons '/' w) hslash

theorem point (h : Halfway (ds ++ '.' :: w)) (hds : ∀ c ∈ ds, c.isDigit = true) : Halfway w := by
  induction ds with
  | nil => exact h.tail (by decide) (by decide)
  | cons d ds ih =>
    rw [List.forall_mem_cons] at hds
    refine ih (h.tail ?_ ?_) hds.2
    · rintro rfl
      cases hds.1
    · rintro rfl
      cases hds.1

/-- A number ends before the stray point: it would end what stands before it with a digit, or go on past
a point itself. -/
theorem of_point (h : Halfway w) (htext : ds ++ '.' :: rest = w ++ '.' :: z) (hne : ds ≠ [])
    (hds : ∀ c ∈ ds, c.isDigit = true) : ∃ v, rest = v ++ '.' :: z ∧ Halfway v := by
  have hlast : ds ≠ w := by
    rintro rfl
    have hdigit := hds _ (List.getLast_mem hne)
    rw [h.last _ (List.getLast?_eq_some_getLast hne)] at hdigit
    cases hdigit
  rcases List.append_eq_append_iff.1 htext with ⟨more, hmore, hrest⟩ | ⟨more, hmore, hrest⟩
  · cases more with
    | nil => exact absurd (by simpa using hmore.symm) hlast
    | cons e more =>
      cases hrest
      subst hmore
      exact ⟨more, rfl, h.point hds⟩
  · cases more with
    | nil => exact absurd (by simpa using hmore) hlast
    | cons e more =>
      obtain rfl : '.' = e := List.head_eq_of_cons_eq hrest
      have hpoint := hds '.' (by simp [hmore])
      cases hpoint

/-- A string has ended before the point. -/
theorem string (h : Halfway ('"' :: (text ++ '"' :: w))) (htext : LegalText text) : Halfway w := by
  refine h.of_suffix ⟨'"' :: (text ++ ['"']), by simp⟩ ?_
  have hquoted : Region.quoted.after (text ++ '"' :: w) = .code := h.code
  rw [Region.after_append, Region.after_legalText htext] at hquoted
  exact hquoted

/-- A string that is open has not. -/
theorem not_quoted (h : Halfway ('"' :: w)) : ¬LegalText (w ++ z) := by
  intro htext
  exact Region.quoted_after_ne_code htext rfl h.code

theorem of_string (h : Halfway w) (hw : '"' :: (text ++ '"' :: rest) = w ++ '.' :: z)
    (htext : LegalText text) : ∃ v, rest = v ++ '.' :: z ∧ Halfway v := by
  cases w with
  | nil => cases hw
  | cons e w =>
    rw [List.cons_append, List.cons.injEq] at hw
    obtain ⟨rfl, hw⟩ := hw
    rcases List.append_eq_append_iff.1 hw with ⟨more, hmore, hrest⟩ | ⟨more, hmore, hrest⟩
    · cases more with
      | nil => cases hrest
      | cons e more =>
        cases hrest
        subst hmore
        exact ⟨more, rfl, h.string htext⟩
    · subst hmore
      exact absurd htext h.not_quoted

theorem block (h : Halfway ('/' :: '*' :: w)) (hrest : afterBlock? (w ++ z) = some rest) :
    ∃ v, rest = v ++ z ∧ Halfway v := by
  have hblock : Region.block.after w = .code := h.code
  have hclosed : ¬(Region.block.after w).IsBlock := by
    rw [hblock]
    rintro (hcode | hcode) <;> cases hcode
  obtain ⟨v, -, hv, hafter⟩ := (Region.exists_afterBlock? w).1 hclosed
  rw [hafter] at hrest
  cases hrest
  refine ⟨v, rfl, h.of_suffix ?_ (hv.trans hblock)⟩
  obtain ⟨pre, hpre⟩ := afterBlock?_suffix (hafter [])
  rw [List.append_nil, List.append_nil] at hpre
  exact ⟨'/' :: '*' :: pre, by rw [← hpre]; rfl⟩

theorem remark (h : Halfway ('/' :: '/' :: w)) (z : List Char) :
    ∃ v, (w ++ z).dropWhile isLineChar = v ++ z ∧ Halfway v := by
  have hremark : Region.remark.after w = .code := h.code
  rcases Region.dropWhile_cases w with ⟨c, v, -, hc, hv, hdrop⟩ | ⟨hopen, -⟩
  · refine ⟨c :: v, hdrop z, h.of_suffix ?_ ?_⟩
    · have hsuffix : (w ++ []).dropWhile isLineChar <:+ w ++ [] := List.dropWhile_suffix _
      rw [hdrop, List.append_nil, List.append_nil] at hsuffix
      exact hsuffix.trans ⟨['/', '/'], rfl⟩
    · rw [Region.after_cons, Region.next_code, hv, hremark]
      · rintro rfl
        cases hc
      · rintro rfl
        cases hc
  · rw [hopen] at hremark
    cases hremark

end Halfway

/-- A point is followed by a digit and does not belong to a number. -/
def Stray (cs : List Char) : Prop :=
  ∃ w d rest, cs = w ++ '.' :: d :: rest ∧ d.isDigit = true ∧ Halfway w

namespace Stray

variable {cs rest : List Char}

theorem ne_nil (h : Stray cs) : cs ≠ [] := by
  obtain ⟨w, d, rest, rfl, -⟩ := h
  simp

/-- Nothing that is passed at once reaches over a stray point. -/
theorem pass (h : Stray cs) (hpass : Pass cs rest) : Stray rest := by
  obtain ⟨w, d, tail, hcs, hd, hw⟩ := h
  have hstray {v : List Char} (hv : Halfway v) : Stray (v ++ '.' :: d :: tail) := ⟨v, d, tail, rfl, hd, hv⟩
  cases hpass with
  | @lone c _ hc =>
    cases w with
    | nil =>
      cases hcs
      cases hc
    | cons e w =>
      cases hcs
      refine hstray (hw.tail ?_ ?_)
      · rintro rfl
        cases hc
      · rintro rfl
        cases hc
  | divide hrest =>
    cases w with
    | nil => cases hcs
    | cons e w =>
      cases hcs
      exact hstray (hw.divide hrest)
  | member hrest =>
    cases w with
    | nil =>
      cases hcs
      obtain ⟨c, hc, hstart⟩ := hrest
      cases hc
      rw [isDigit_eq_false_of_isNameStart hstart] at hd
      cases hd
    | cons e w =>
      cases hcs
      exact hstray (hw.tail (by decide) (by decide))
  | point hne hds =>
    obtain ⟨v, rfl, hv⟩ := hw.of_point hcs hne hds
    exact hstray hv
  | string htext =>
    obtain ⟨v, rfl, hv⟩ := hw.of_string hcs htext
    exact hstray hv
  | @block cs _ hrest =>
    cases w with
    | nil => cases hcs
    | cons e w =>
      cases w with
      | nil => cases hcs
      | cons f w =>
        cases hcs
        obtain ⟨v, rfl, hv⟩ := hw.block hrest
        exact hstray hv
  | @remark cs =>
    cases w with
    | nil => cases hcs
    | cons e w =>
      cases w with
      | nil => cases hcs
      | cons f w =>
        cases hcs
        obtain ⟨v, hdrop, hv⟩ := hw.remark ('.' :: d :: tail)
        have hrest := hstray hv
        rw [← hdrop] at hrest
        exact hrest

theorem passes (h : Stray cs) (hpass : Relation.ReflTransGen Pass cs rest) : Stray rest := by
  induction hpass with
  | refl => exact h
  | tail _ hstep ih => exact ih.pass hstep

end Stray

/-- A text with a stray point is not read. -/
theorem Program.parse_ne_ok_of_stray {s : String} (h : Stray s.toList) (p : Program) :
    Program.parse s ≠ .ok p := by
  intro hp
  obtain ⟨j, m, hdone⟩ := Parser.read_eq_ok_iff.1 hp
  have hrest := h.passes (Grammar.passes_program hdone)
  exact hrest.ne_nil (Grammar.chars_of_program hdone)

end Primer
