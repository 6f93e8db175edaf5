import Primer.Proofs.LineEnds.CarriageReturn
import Primer.Proofs.Respacing.Progress

/-!
Programs in texts whose lines end with a carriage return and a line feed. A text that can be read can
be read so too, unless a line comment behind code is followed by another line
(`Program.parse_crlf_iff`); a text without line comments that cannot be read fails for the same cause,
at the same line and column unless the error stands at the end of a line, from where it moves to the
start of the next (`Program.parse_crlf_error`).
-/

namespace Primer

/-- The text with a carriage return before every line feed. -/
def withCarriageReturns (s : String) : String := String.ofList (crlf s.toList)

/-- Whether a line comment that stands behind code is followed by another line. -/
def hasRemarkBehindCode (s : String) : Bool := remarkBehindCode (.line true) s.toList

/-! ## Locations -/

/-- The characters within the last `n` bytes. -/
def charsFrom (n : Nat) : List Char → List Char
  | [] => []
  | c :: cs => if byteCount (c :: cs) ≤ n then c :: cs else charsFrom n cs

/-- The character that stands at a position of the text. -/
def Position.next? (p : Position) (text : String) : Option Char :=
  (charsFrom p.toEnd text.toList).head?

theorem charsFrom_append (pre rest : List Char) : charsFrom (byteCount rest) (pre ++ rest) = rest := by
  induction pre with
  | nil =>
    cases rest with
    | nil => rfl
    | cons c cs => exact if_pos (Nat.le_refl _)
  | cons c pre ih =>
    have hlt : byteCount rest < byteCount (c :: (pre ++ rest)) :=
      byteCount_lt_of_append (List.cons_ne_nil c pre) rest
    rw [List.cons_append, charsFrom, if_neg (Nat.not_le.2 hlt), ih]

theorem charsWithin?_append (pre rest : List Char) :
    charsWithin? (byteCount pre) (pre ++ rest) = some pre := by
  induction pre with
  | nil => cases rest <;> rfl
  | cons c pre ih =>
    have hpos := c.utf8Size_pos
    have hle : c.utf8Size ≤ byteCount (c :: pre) := Nat.le_add_right _ _
    rw [List.cons_append, charsWithin?, if_pos hle, byteCount_cons, Nat.add_sub_cancel_left, ih]
    · rfl
    · rw [byteCount_cons]
      omega

/-- A place in a text is located by what stands before it. -/
theorem locate?_of_append {s : String} {pre rest : List Char} (h : s.toList = pre ++ rest) :
    (⟨byteCount rest⟩ : Position).locate? s = some (Location.start.after pre) := by
  rw [Position.locate?, h, byteCount_append, Nat.add_sub_cancel, charsWithin?_append]
  rfl

theorem next?_of_append {s : String} {pre rest : List Char} (h : s.toList = pre ++ rest) :
    (⟨byteCount rest⟩ : Position).next? s = rest.head? := by
  rw [Position.next?, h, charsFrom_append]

namespace Location

theorem after_cons {l : Location} {c : Char} {cs : List Char} (hr : c ≠ '\r') (hn : c ≠ '\n') :
    l.after (c :: cs) = after ⟨l.line, l.column + 1⟩ cs := by
  rw [after, if_neg (by simp [hr, hn])]
  rintro t rfl
  exact absurd rfl hr

/-- A carriage return before a line feed does not show in the locations behind them. -/
theorem after_crlf {l : Location} {cs : List Char} (h : '\r' ∉ cs) :
    l.after (crlf cs) = l.after cs := by
  induction cs generalizing l with
  | nil => rfl
  | cons c cs ih =>
    rw [List.mem_cons, not_or] at h
    by_cases hn : c = '\n'
    · subst hn
      rw [crlf_newline, after, ih h.2]
      rfl
    · rw [crlf_cons hn, after_cons (Ne.symm h.1) hn, after_cons (Ne.symm h.1) hn, ih h.2]

/-- Behind the carriage return of a line end the next line has begun. -/
theorem after_crlf_return {l : Location} {cs : List Char} (h : '\r' ∉ cs) :
    l.after (crlf cs ++ ['\r']) = ⟨(l.after cs).line + 1, 1⟩ := by
  induction cs generalizing l with
  | nil => rfl
  | cons c cs ih =>
    rw [List.mem_cons, not_or] at h
    by_cases hn : c = '\n'
    · subst hn
      rw [crlf_newline, List.cons_append, List.cons_append, after, ih h.2]
      rfl
    · rw [crlf_cons hn, List.cons_append, after_cons (Ne.symm h.1) hn, after_cons (Ne.symm h.1) hn,
        ih h.2]

end Location

namespace LineEnds

open Primer.Parser

variable {s : String}

theorem toList_withCarriageReturns (s : String) :
    (withCarriageReturns s).toList = crlf s.toList := String.toList_ofList

/-- The two texts of a program side by side. -/
theorem match_program (hs : '\r' ∉ s.toList) :
    (comparison s.toList).Match (fun p q => p.erase = q.erase)
      (fun i j => CrlfAt s.toList (.line true) i j ∧ i.chars = [])
      (Grammar.program (.ofString s)) (Grammar.program (.ofString (withCarriageReturns s))) := by
  have hstart : CrlfAt s.toList (.line true) (.ofString s) (.ofString (withCarriageReturns s)) := by
    refine ⟨List.suffix_rfl, .inl ?_, rfl⟩
    rw [Cursor.chars_ofString, Cursor.chars_ofString, toList_withCarriageReturns]
  have hprogram := Respacing.program (W := respacing s.toList hs) (n := (Cursor.ofString s).bytes + 1)
    id (parallel_skipBlank hs (fun _ => rfl) Grammar.reads_blank_skip)
  refine (hprogram (Nat.lt_succ_self _) hstart).mono (fun p q h => ?_) fun _ _ h => h.1
  rw [Program.erase_eq_relocate, Program.erase_eq_relocate]
  exact h.eq

/-- The places of the two errors are the same for a reader, unless they stand at a line end. -/
theorem locate?_place (hs : '\r' ∉ s.toList) {i j : Cursor} (h : (comparison s.toList).Place i j) :
    ∃ l, i.position.locate? s = some l ∧ j.position.locate? (withCarriageReturns s) =
      some (if i.position.next? s = some '\n' then ⟨l.line + 1, 1⟩ else l) := by
  obtain ⟨⟨pre, hpre⟩, hj⟩ := h
  have hcr : '\r' ∉ pre := fun hmem => hs (hpre ▸ List.mem_append_left _ hmem)
  have hi : i.position = ⟨byteCount i.chars⟩ := congrArg Position.mk i.bytes_eq
  have hj' : j.position = ⟨byteCount (settled i.chars)⟩ := by
    rw [← hj]
    exact congrArg Position.mk j.bytes_eq
  refine ⟨_, by rw [hi]; exact locate?_of_append hpre.symm, ?_⟩
  rw [hi, hj', next?_of_append hpre.symm]
  by_cases hline : i.chars.head? = some '\n'
  · obtain ⟨t, ht⟩ := List.head?_eq_some_iff.1 hline
    have happend : (withCarriageReturns s).toList = (crlf pre ++ ['\r']) ++ settled i.chars := by
      rw [toList_withCarriageReturns, ← hpre, crlf_append, ht, crlf_newline, settled]
      simp
    rw [if_pos hline, locate?_of_append happend, Location.after_crlf_return hcr]
  · have happend : (withCarriageReturns s).toList = crlf pre ++ settled i.chars := by
      rw [toList_withCarriageReturns, ← hpre, crlf_append, crlf_eq_settled hline]
    rw [if_neg hline, locate?_of_append happend, Location.after_crlf hcr]

end LineEnds

namespace Program

open Primer.LineEnds

/-- A program can also be read from its text with carriage returns, in everything but its places,
exactly if no line comment behind code is followed by another line; otherwise that text cannot be
read. -/
theorem parse_crlf_iff {s : String} {p : Program} (hs : '\r' ∉ s.toList)
    (h : Program.parse s = .ok p) :
    ((∃ q, Program.parse (withCarriageReturns s) = .ok q ∧ q.erase = p.erase) ↔
      hasRemarkBehindCode s = false) ∧
    (hasRemarkBehindCode s = true → ∃ e, Program.parse (withCarriageReturns s) = .error e) := by
  have hmatch := match_program hs
  simp only [Program.parse, Parser.read] at h ⊢
  generalize Grammar.program (.ofString s) = r at h hmatch
  generalize Grammar.program (.ofString (withCarriageReturns s)) = r' at hmatch
  cases hmatch with
  | @done a q i j m m' hvalue hrest =>
    cases h
    -- the scan has come to the end of the text
    have hscan : hasRemarkBehindCode s = false := by
      rw [hasRemarkBehindCode, ← hrest.1.scan, hrest.2]
      rfl
    rw [hscan]
    exact ⟨⟨fun _ => rfl, fun _ => ⟨q, rfl, hvalue.symm⟩⟩, fun hscan => by cases hscan⟩
  | miss => cases h
  | halt => cases h
  | @lost _ e hlost =>
    have hscan : hasRemarkBehindCode s = true := hlost
    rw [hscan]
    refine ⟨⟨?_, fun hscan => by cases hscan⟩, fun _ => ⟨e, rfl⟩⟩
    rintro ⟨q, hq, -⟩
    cases hq

/-- A text with comments of both kinds and their signs in a string, but no line comment behind code. -/
def remarksText : String := "// a\nprogram t /* b\n*/\nconstant c : string = \"//\"\n"

theorem exists_ok_of_isOk {x : Except ε α} (h : x.isOk = true) : ∃ a, x = .ok a := by
  cases x with
  | ok a => exact ⟨a, rfl⟩
  | error e => cases h

theorem parse_crlf_iff_remarks : ∃ p q, Program.parse remarksText = .ok p ∧
    Program.parse (withCarriageReturns remarksText) = .ok q ∧ q.erase = p.erase := by
  obtain ⟨p, hp⟩ := exists_ok_of_isOk (x := Program.parse remarksText) (by decide +kernel)
  obtain ⟨q, hq, herase⟩ := (parse_crlf_iff (by decide +kernel) hp).1.2 (by decide +kernel)
  exact ⟨p, q, hp, hq, herase⟩

/-- With a carriage return behind it, the comment hides the end of its line. -/
theorem parse_crlf_remark_fails :
    '\r' ∉ "program t // c\n".toList ∧ (∃ p, Program.parse "program t // c\n" = .ok p) ∧
    Program.parse (withCarriageReturns "program t // c\n") =
      .error ⟨.expected "end of line after program name", ⟨6⟩⟩ := by
  exact ⟨by decide +kernel, exists_ok_of_isOk (by decide +kernel), by decide +kernel⟩

/-- A text without line comments that cannot be read fails for the same cause with carriage returns,
and on the same line exactly if the error does not stand at the end of a line. There the carriage
return counts as a line of its own, and the error moves to the start of the next line. -/
theorem parse_crlf_error {s : String} {e : ReadError} (hs : '\r' ∉ s.toList)
    (hremark : ¬ ['/', '/'] <:+: s.toList) (h : Program.parse s = .error e) :
    ∃ e' l l', Program.parse (withCarriageReturns s) = .error e' ∧ e'.cause = e.cause ∧
      e.position.locate? s = some l ∧ e'.position.locate? (withCarriageReturns s) = some l' ∧
      (l'.line = l.line ↔ e.position.next? s ≠ some '\n') ∧
      l' = if e.position.next? s = some '\n' then ⟨l.line + 1, 1⟩ else l := by
  have hmatch := match_program hs
  have hanswers := Grammar.answers_program (.ofString s)
  simp only [Program.parse, Parser.read] at h ⊢
  generalize Grammar.program (.ofString s) = r at h hmatch hanswers
  generalize Grammar.program (.ofString (withCarriageReturns s)) = r' at hmatch
  cases hmatch with
  | done => cases h
  | @miss m => exact absurd rfl (hanswers m)
  | @halt i j cause hplace =>
    cases h
    obtain ⟨l, hl, hl'⟩ := locate?_place hs hplace
    refine ⟨_, l, _, rfl, rfl, hl, hl', ?_, rfl⟩
    split
    case isTrue hline => simp [hline]
    case isFalse hline => simp [hline]
  | lost hlost =>
    have hnone := remarkBehindCode.eq_false (.line true) hremark
    exact absurd (hlost.symm.trans hnone) (by decide)

/-- A text in which a colon is missing, within a line. -/
def missingColonText : String := "program t\nglobal g integer\n"

theorem parse_crlf_error_colon :
    ∃ e e', Program.parse missingColonText = .error e ∧
      Program.parse (withCarriageReturns missingColonText) = .error e' ∧ e'.cause = e.cause ∧
      e.position.locate? missingColonText = some ⟨2, 10⟩ ∧
      e'.position.locate? (withCarriageReturns missingColonText) = some ⟨2, 10⟩ := by
  have he : Program.parse missingColonText = .error ⟨.expected "':' after name", ⟨8⟩⟩ := by
    decide +kernel
  have hplace : (⟨8⟩ : Position).locate? missingColonText = some ⟨2, 10⟩ := by decide +kernel
  obtain ⟨e', l, l', he', hcause, hl, hl', -, rfl⟩ :=
    parse_crlf_error (by decide +kernel) (by decide +kernel) he
  rw [hplace] at hl
  cases hl
  exact ⟨_, e', he, he', hcause, hplace, hl'⟩

/-- Where the name of the program is missing at the end of its line, the error moves to the next. -/
theorem parse_crlf_error_moves :
    '\r' ∉ "program\n".toList ∧ ¬ ['/', '/'] <:+: "program\n".toList ∧
    Program.parse "program\n" = .error ⟨.expected "program name", ⟨1⟩⟩ ∧
    (⟨1⟩ : Position).locate? "program\n" = some ⟨1, 8⟩ ∧
    Program.parse (withCarriageReturns "program\n") = .error ⟨.expected "program name", ⟨1⟩⟩ ∧
    (⟨1⟩ : Position).locate? (withCarriageReturns "program\n") = some ⟨2, 1⟩ := by
  decide +kernel

end Program

end Primer
