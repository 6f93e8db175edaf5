import Primer.Proofs.Places.Lines
import Primer.Proofs.ReadErrors.Origin
import Primer.Proofs.Typing.Diagnostics

/-!
Every position that is reported divides the text: it stands between two characters, at the start or at
the end, so that its line and column can be told (`positions_divide`).
-/

namespace Primer

namespace Position

/-- The position divides the text into what stands before it and what follows. -/
def Divides (i : Position) (s : String) : Prop :=
  ∃ before after : String, s = before ++ after ∧ i.toEnd = after.utf8ByteSize

theorem divides_of_suffix {i : Position} {s : String} {rest : List Char} (h : rest <:+ s.toList)
    (hi : i.toEnd = byteCount rest) : i.Divides s := by
  obtain ⟨pre, h⟩ := h
  refine ⟨String.ofList pre, String.ofList rest, ?_, by rw [hi, utf8ByteSize_ofList]⟩
  rw [← String.ofList_append, h, String.ofList_toList]

/-- Line and column can be told of the positions that divide the text, and of no other in it. -/
theorem divides_iff {i : Position} {s : String} :
    i.Divides s ↔ i.toEnd ≤ s.utf8ByteSize ∧ (i.locate? s).isSome := by
  constructor
  · rintro ⟨before, after, rfl, hi⟩
    obtain rfl : i = ⟨byteCount after.toList⟩ := by rw [← utf8ByteSize_eq, ← hi]
    refine ⟨?_, ?_⟩
    · rw [utf8ByteSize_eq, String.toList_append, byteCount_append]
      exact Nat.le_add_left _ _
    · rw [locate?_of_append String.toList_append]
      rfl
  · rintro ⟨hle, hsome⟩
    rw [utf8ByteSize_eq] at hle
    rw [locate?, Option.isSome_map] at hsome
    obtain ⟨pre, hpre⟩ := Option.isSome_iff_exists.1 hsome
    obtain ⟨rest, hs, hbytes⟩ := exists_append_of_charsWithin? (Nat.sub_le _ _) hpre
    refine divides_of_suffix ⟨pre, hs.symm⟩ ?_
    have hsum : byteCount s.toList = byteCount pre + byteCount rest := by rw [hs, byteCount_append]
    omega

end Position

open Primer.Parser

theorem Cursor.position_divides {i : Cursor} {s : String} (hi : i.chars <:+ s.toList) :
    i.position.Divides s := Position.divides_of_suffix hi i.bytes_eq

/-- An error that a production raises stands in what the production was given. -/
theorem Parser.Raises.divides {p : Parser α} {s : String} (h : Raises p i e) (hi : i.chars <:+ s.toList) :
    e.position.Divides s := by
  cases h with
  | expected =>
    apply Cursor.position_divides
    rw [Grammar.behindSpace_eq]
    exact (skipBlank_suffix false i.chars).trans hi
  | nameTooLong | numberOutOfRange | undefinedStructure => exact Cursor.position_divides hi

/-- The error with which a text is not read stands in the text. -/
theorem Parser.Accounts.divides {p : Parser α} (h : Accounts p) {s : String} (he : p.read s = .error e) :
    e.position.Divides s := by
  rw [Parser.read] at he
  cases hp : p (.ofString s) with
  | done a rest m => simp [hp] at he
  | miss m =>
    simp only [hp, Except.error.injEq] at he
    subst he
    cases m with
    | none => exact Position.divides_of_suffix List.suffix_rfl rfl
    | some n =>
      obtain ⟨rest, hrest, hn⟩ := h.miss hp n rfl
      exact Position.divides_of_suffix hrest hn.symm
  | halt e' =>
    simp only [hp, Except.error.injEq] at he
    subst he
    have hi := h (.ofString s)
    rw [hp] at hi
    cases hi with
    | halt _ hraises hj => exact hraises.divides hj

theorem Program.divides_of_check {p : Program} {s : String} (h : Program.parse s = .ok p)
    {d : Diagnostic} (hd : d ∈ p.check) : d.position.Divides s := by
  rcases (legal_of_parse h).closed.located_check d hd with hwithin | ⟨rfl, -⟩
  · obtain ⟨x, hx, hplace⟩ := List.mem_map.1 hwithin.place
    obtain ⟨before, cs, rest, hs, hspans⟩ := standsIn_of_parse h x hx
    rw [← hplace]
    exact Position.divides_of_suffix ⟨before, hs.symm⟩ hspans.place
  · exact Position.divides_of_suffix List.nil_suffix rfl

/-- **Reported positions divide the text.** The error with which a text is not read, as a program or as an
expression, and each problem that checking finds in a program that is read stand at a place between
characters of the text; those are the places in it of which line and column can be told. -/
theorem positions_divide (s : String) :
    (∀ e, Program.parse s = .error e → e.position.Divides s) ∧
    (∀ e, Expr.parse s = .error e → e.position.Divides s) ∧
    (∀ p, Program.parse s = .ok p → ∀ d ∈ p.check, d.position.Divides s) ∧
    ∀ i : Position, i.Divides s ↔ i.toEnd ≤ s.utf8ByteSize ∧ (i.locate? s).isSome :=
  ⟨fun _ => Grammar.accounts_program.divides, fun _ => Grammar.accounts_wholeExpression.divides,
    fun _ hp _ => Program.divides_of_check hp, fun _ => Position.divides_iff⟩

/-- A string with a letter of two bytes, and a word too many behind it. -/
def accentText : String := "program t\nconstant c : string = \"\u00e9\" x\n"

theorem positions_divide_accent :
    Program.parse accentText = .error ⟨.expected "end of line after constant", ⟨2⟩⟩ ∧
      (⟨2⟩ : Position).Divides accentText ∧ ¬ (⟨5⟩ : Position).Divides accentText := by
  have h : Program.parse accentText = .error ⟨.expected "end of line after constant", ⟨2⟩⟩ := by
    decide +kernel
  obtain ⟨hprogram, -, -, hdivides⟩ := positions_divide accentText
  exact ⟨h, hprogram _ h, fun hi => absurd ((hdivides _).1 hi) (by decide +kernel)⟩

end Primer
