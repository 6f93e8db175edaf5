import Primer.Grammar.Literal
import Primer.Proofs.Parser.Giving
import Primer.Proofs.Syntax.Legal

/-!
What the productions for space, words, names and literals give, and which of them read something
wherever they succeed.
-/

namespace Primer

/-- A whole number becomes a literal only within the range of its type, which is what legal literals are
held to. -/
theorem Literal.legal_of_ofInt? {v : Literal} (h : Literal.ofInt? value = some v) : v.Legal := by
  simp only [Literal.ofInt?] at h
  split at h
  · cases h; assumption
  · split at h
    case isFalse.isTrue hint hnat =>
      cases h
      simp only [Literal.Legal]
      have : leastInteger ≤ value := by simp only [leastInteger]; omega
      omega
    · cases h

namespace Grammar

open Primer.Parser

/-! ## Space -/

theorem gives_lineComment : Gives lineComment fun _ => True :=
  .bind .text fun _ _ => .discard .takeWhile

theorem gives_blockComment : Gives blockComment fun _ => True :=
  .bind .text fun _ _ => .bind .skipUntil fun _ _ => .text

/-- Space gives nothing, and it ends within the text. The productions around it need no more of it. -/
theorem gives_space : Gives space fun _ => True :=
  .discard (.many (.orElse (.discard .takeWhile1) gives_blockComment))

theorem gives_blank : Gives blank fun _ => True :=
  .discard (.many (.orElse (.discard .takeWhile1) (.orElse gives_lineComment gives_blockComment)))

/-- The end of a line takes the blank lines and comments behind it along. -/
theorem gives_lineEnd : Gives lineEnd fun _ => True := by
  refine .bind gives_space fun _ _ => ?_
  refine .bind (.discard (.maybe gives_lineComment)) fun _ _ => ?_
  exact .bind (.orElse (.discard .char) .atEnd) fun _ _ => gives_blank

section
variable {p q : Parser α} {P : α → Prop} {n : Nat}

theorem gives_afterSpace (h : Gives p P) : Gives (afterSpace p) P :=
  .bind gives_space fun _ _ => h

theorem gives_spaced (h : Gives p P) : Gives (spaced p) P :=
  .bind gives_space fun _ _ => .bind h fun _ ha => .bind gives_space fun _ _ => .pure ha

theorem near_afterSpace (h : Near n p q) : Near n (afterSpace p) (afterSpace q) :=
  .bind .rfl gives_space fun _ => h

/-- Space before and behind does not change how far two parsers agree. -/
theorem near_spaced (h : Near n p q) (hp : Gives p P) : Near n (spaced p) (spaced q) :=
  .bind .rfl gives_space fun _ => h.bind hp fun _ => .rfl

end

/-! ## Words and names -/

theorem gives_word {w : String} : Gives (word w) fun _ => True :=
  .bind .text fun _ _ => .notFollowedBy

/-- A word that is not empty reads something wherever it succeeds. The recursive productions start with
one, and so the parser in them sees a shorter text. -/
theorem advances_word {w : String} (hw : w ≠ "") : Advances (word w) :=
  (Advances.text hw).bind fun _ => .notFollowedBy

/-- A label is a letter or an underscore and then letters, digits and underscores. -/
theorem gives_label : Gives label fun s =>
    (∃ c ∈ s.toList.head?, isNameStart c = true) ∧ ∀ c ∈ s.toList, isNameChar c = true := by
  refine .bind .satisfy fun c hc => .bind .takeWhile fun cs hcs => .pure ⟨?_, ?_⟩
  · exact ⟨c, by simp, hc⟩
  · have hstart : isNameChar c = true := by
      simp only [isNameStart, isNameChar, Char.isAlphanum, Bool.or_eq_true] at hc ⊢
      tauto
    simpa [hstart] using hcs

/-- Names that are read are no keywords, and no longer than names may be. -/
theorem gives_ident : Gives ident fun x => LegalName x.name := by
  refine .bind .here fun start _ => .bind gives_label fun name hname => ?_
  split
  · exact .missAt
  case isFalse hkey =>
    split
    · exact .haltAt
    case isFalse hlen =>
      exact .pure ⟨hname.1, hname.2, by simpa using hkey, Nat.le_of_not_lt hlen⟩

/-! ## Literals -/

/-- A part of a string is a character that needs no escape, or a backslash with one of the characters that
may follow it. -/
theorem gives_stringItem : Gives stringItem LegalText := by
  refine .orElse ?_ ?_
  · refine .bind .satisfy fun c hc => .pure ?_
    exact .plain (by simpa using hc) .nil
  · refine .bind .char fun b hb => .bind .satisfy fun c hc => .pure ?_
    subst hb
    exact .escape (by simpa using hc) .nil

/-- A string is legal as its parts are, one behind the other. -/
theorem gives_string : Gives string Literal.Legal := by
  refine .bind (.discard .char) fun _ _ => .expect ?_
  refine .bind (.many gives_stringItem) fun items hitems => ?_
  refine .bind (.discard .char) fun _ _ => .pure ?_
  rw [Literal.Legal, String.toList_ofList]
  induction items with
  | nil => exact .nil
  | cons item items ih =>
    exact (hitems item List.mem_cons_self).append
      (ih fun t ht => hitems t (List.mem_cons_of_mem item ht))

theorem gives_sign : Gives sign fun _ => True :=
  .bind (.maybe .satisfy) fun _ _ => .pure trivial

theorem gives_real : Gives real Literal.Legal := by
  refine .bind gives_sign fun negative _ => .bind .takeWhile1 fun whole _ => ?_
  refine .bind (.discard .char) fun _ _ => .bind .takeWhile1 fun fraction _ => ?_
  exact .bind .notFollowedBy fun _ _ => .pure trivial

/-- An integer that is out of range halts, so that what is given is in range. -/
theorem gives_integer : Gives integer Literal.Legal := by
  refine .bind .here fun start _ => .bind gives_sign fun negative _ => ?_
  refine .bind .takeWhile1 fun digits _ => ?_
  cases h : Literal.ofInt? (if negative then -(ofDigits digits : Int) else ofDigits digits) with
  | some v => simpa only [h] using .pure (Literal.legal_of_ofInt? h)
  | none => simpa only [h] using .haltAt

theorem gives_boolean : Gives boolean Literal.Legal :=
  .orElse (.bind gives_word fun _ _ => .pure trivial) (.bind gives_word fun _ _ => .pure trivial)

/-- Every literal that is read is legal, whichever of the four alternatives reads it. -/
theorem gives_literal : Gives literal Literal.Legal :=
  .orElse gives_string (.orElse gives_real (.orElse gives_integer gives_boolean))

end Grammar

end Primer
