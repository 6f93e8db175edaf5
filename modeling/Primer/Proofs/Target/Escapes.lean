import Primer.Proofs.Places.Expr
import Primer.Proofs.RoundTrip.Literal
import Primer.Target.Expr

/-!
What the strings of a program stand for, in the language and in C++. The text between the quotes is
copied, and both languages read it the same way but for one escape: in C++ the sign for the null
character is the shortest of the octal escapes, which take in up to two digits more. So a string keeps
its value exactly if no octal digit stands right behind that sign (`decode_literal_iff`).
-/

namespace Primer

/-! ## In the language -/

/-- The character that an escape stands for, by the character behind the backslash. -/
def escaped? : Char → Option Char
  | '"' => some '"'
  | '\\' => some '\\'
  | 'n' => some '\n'
  | 'r' => some '\r'
  | 't' => some '\t'
  | '0' => some '\x00'
  | _ => none

/-- The characters that the text between the quotes of a string stands for, one escape at a time. -/
def decodeText : List Char → Option (List Char)
  | [] => some []
  | '\\' :: cs =>
    match cs with
    | [] => none
    | c :: cs => do return (← escaped? c) :: (← decodeText cs)
  | c :: cs => do return c :: (← decodeText cs)

/-! ## In C++ -/

namespace Target

def isOctalDigit (c : Char) : Bool := '0' ≤ c && c ≤ '7'

/-- The longest run of at most three octal digits. -/
def octalDigits (cs : List Char) : List Char := (cs.takeWhile isOctalDigit).take 3

def ofOctal (digits : List Char) : Nat :=
  digits.foldl (fun n c => 8 * n + (c.toNat - '0'.toNat)) 0

/-- The escapes of a single character. -/
def simpleEscape? : Char → Option Char
  | '\x27' => some '\x27'
  | '"' => some '"'
  | '?' => some '?'
  | '\\' => some '\\'
  | 'a' => some '\x07'
  | 'b' => some '\x08'
  | 'f' => some '\x0c'
  | 'n' => some '\n'
  | 'r' => some '\r'
  | 't' => some '\t'
  | 'v' => some '\x0b'
  | _ => none

/-- What the escape behind a backslash stands for, and the number of characters that it takes in. -/
def escape? (cs : List Char) : Option (Char × Nat) :=
  match octalDigits cs with
  | [] => do return (← simpleEscape? (← cs.head?), 1)
  | digits => some (Char.ofNat (ofOctal digits), digits.length)

/-- The characters of a string from behind its opening quote to its end, where the first `n` have been
taken in by an escape. -/
def decodeFrom : Nat → List Char → Option (List Char)
  | _, [] => none
  | n + 1, _ :: cs => decodeFrom n cs
  | 0, '"' :: cs => if cs = ['s'] then some [] else none
  | 0, '\\' :: cs => do
    let (c, n) ← escape? cs
    return c :: (← decodeFrom n cs)
  | 0, c :: cs => if c = '\n' then none else do return c :: (← decodeFrom 0 cs)

/-- The characters that a string literal of C++ stands for, one with the suffix of `std::string`.
Escapes by hexadecimal digits are not read. -/
def decodeLiteral : List Char → Option (List Char)
  | '"' :: cs => decodeFrom 0 cs
  | _ => none

end Target

/-- Whether an octal digit stands right behind an escaped null character. -/
def hasNullBeforeOctal : List Char → Bool
  | [] => false
  | '\\' :: cs =>
    match cs with
    | [] => false
    | c :: cs => (c == '0' && cs.head?.any Target.isOctalDigit) || hasNullBeforeOctal cs
  | _ :: cs => hasNullBeforeOctal cs

/-! ## Both side by side -/

namespace Target

variable {c : Char} {cs : List Char}

theorem decodeText_plain (hc : c ≠ '\\') : decodeText (c :: cs) = (decodeText cs).map (c :: ·) := by
  rw [decodeText]
  · cases decodeText cs <;> rfl
  · exact hc

theorem hasNullBeforeOctal_plain (hc : c ≠ '\\') :
    hasNullBeforeOctal (c :: cs) = hasNullBeforeOctal cs := by
  rw [hasNullBeforeOctal]
  exact hc

theorem decodeFrom_plain (hc : c ∉ ['\\', '"', '\r', '\n']) :
    decodeFrom 0 (c :: cs) = (decodeFrom 0 cs).map (c :: ·) := by
  simp only [List.mem_cons, List.not_mem_nil, or_false, not_or] at hc
  obtain ⟨hslash, hquote, -, hline⟩ := hc
  rw [decodeFrom]
  · rw [if_neg hline]
    cases decodeFrom 0 cs <;> rfl
  · exact hquote
  · exact hslash

theorem octalDigits_cons (h : isOctalDigit c = true) :
    octalDigits (c :: cs) = c :: (cs.takeWhile isOctalDigit).take 2 := by
  rw [octalDigits, List.takeWhile_cons_of_pos h]
  rfl

/-- An escape of the language other than that for the null character is one of C++. -/
theorem escape?_simple (cs : List Char) (hc : c ∈ ['"', '\\', 'n', 'r', 't']) :
    ∃ d, escaped? c = some d ∧ escape? (c :: cs) = some (d, 1) := by
  simp only [List.mem_cons, List.not_mem_nil, or_false] at hc
  rcases hc with rfl | rfl | rfl | rfl | rfl <;> exact ⟨_, rfl, rfl⟩

/-- The escape for the null character takes in up to two octal digits behind it. -/
theorem escape?_null : escape? ('0' :: cs) =
    some (Char.ofNat (ofOctal ('0' :: (cs.takeWhile isOctalDigit).take 2)),
      ((cs.takeWhile isOctalDigit).take 2).length + 1) := by
  rw [escape?, octalDigits_cons (by decide)]
  rfl

theorem takeWhile_octal_end : (cs ++ ['"', 's']).takeWhile isOctalDigit = cs.takeWhile isOctalDigit := by
  induction cs with
  | nil => rfl
  | cons c cs ih =>
    rw [List.cons_append]
    cases hc : isOctalDigit c with
    | true => rw [List.takeWhile_cons_of_pos hc, List.takeWhile_cons_of_pos hc, ih]
    | false => rw [List.takeWhile_cons_of_neg (by simp [hc]), List.takeWhile_cons_of_neg (by simp [hc])]

/-- The values of a text in the two languages, where C++ has taken in the first `n` characters with an
escape before them. -/
structure Decodes (n : Nat) (cs value value' : List Char) : Prop where
  source : decodeText cs = some value
  target : decodeFrom n (cs ++ ['"', 's']) = some value'
  length_le : value'.length + n ≤ value.length
  /-- They differ only if an escape takes in a digit. -/
  eq : n = 0 → hasNullBeforeOctal cs = false → value' = value
  length_lt : hasNullBeforeOctal cs = true → value'.length + n < value.length

namespace Decodes

variable {n : Nat} {v v' : List Char}

theorem plain (h : Decodes 0 cs v v') (hc : c ∉ ['\\', '"', '\r', '\n']) :
    Decodes 0 (c :: cs) (c :: v) (c :: v') := by
  have hslash : c ≠ '\\' := fun h => hc (by simp [h])
  refine ⟨?_, ?_, ?_, ?_, ?_⟩
  · rw [decodeText_plain hslash, h.source]
    rfl
  · rw [List.cons_append, decodeFrom_plain hc, h.target]
    rfl
  · simpa using h.length_le
  · intro _ hnull
    rw [hasNullBeforeOctal_plain hslash] at hnull
    rw [h.eq rfl hnull]
  · intro hnull
    rw [hasNullBeforeOctal_plain hslash] at hnull
    simpa using h.length_lt hnull

/-- A digit that the escape before it has taken in. -/
theorem taken (h : Decodes n cs v v') (hc : c ≠ '\\') : Decodes (n + 1) (c :: cs) (c :: v) v' := by
  refine ⟨?_, h.target, ?_, ?_, ?_⟩
  · rw [decodeText_plain hc, h.source]
    rfl
  · have hle := h.length_le
    simp only [List.length_cons]
    omega
  · intro hzero
    cases hzero
  · intro hnull
    rw [hasNullBeforeOctal_plain hc] at hnull
    have hlt := h.length_lt hnull
    simp only [List.length_cons]
    omega

theorem simple (h : Decodes 0 cs v v') (hc : c ∈ ['"', '\\', 'n', 'r', 't']) :
    ∃ d, Decodes 0 ('\\' :: c :: cs) (d :: v) (d :: v') := by
  obtain ⟨d, hd, hd'⟩ := escape?_simple (cs ++ ['"', 's']) hc
  have hzero : c ≠ '0' := by
    rintro rfl
    exact absurd hc (by decide)
  have hnull : hasNullBeforeOctal ('\\' :: c :: cs) = hasNullBeforeOctal cs := by
    simp [hasNullBeforeOctal, hzero]
  refine ⟨d, ?_, ?_, ?_, ?_, ?_⟩
  · rw [decodeText, hd, h.source]
    rfl
  · have htarget := h.target
    rw [List.cons_append, List.cons_append, decodeFrom, hd']
    simp only [Option.bind_eq_bind, Option.bind_some, decodeFrom, htarget]
    rfl
  · simpa using h.length_le
  · intro _ hfalse
    rw [hnull] at hfalse
    rw [h.eq rfl hfalse]
  · intro htrue
    rw [hnull] at htrue
    simpa using h.length_lt htrue

theorem taken_eq_nil_iff :
    (cs.takeWhile isOctalDigit).take 2 = [] ↔ cs.head?.any isOctalDigit = false := by
  cases cs with
  | nil => simp
  | cons d cs => cases hd : isOctalDigit d <;> simp [List.takeWhile, hd]

/-- The null character keeps its value only if the escape takes in no digit. -/
theorem null (h : Decodes ((cs.takeWhile isOctalDigit).take 2).length cs v v') :
    ∃ d, Decodes 0 ('\\' :: '0' :: cs) ('\x00' :: v) (d :: v') := by
  have hnull : hasNullBeforeOctal ('\\' :: '0' :: cs) =
      (cs.head?.any isOctalDigit || hasNullBeforeOctal cs) := rfl
  have hle := h.length_le
  refine ⟨Char.ofNat (ofOctal ('0' :: (cs.takeWhile isOctalDigit).take 2)), ?_, ?_, ?_, ?_, ?_⟩
  · rw [decodeText, h.source]
    rfl
  · have htarget := h.target
    rw [List.cons_append, List.cons_append, decodeFrom, escape?_null, takeWhile_octal_end]
    simp only [Option.bind_eq_bind, Option.bind_some, decodeFrom, htarget]
    rfl
  · simp only [List.length_cons]
    omega
  · intro _ hfalse
    rw [hnull, Bool.or_eq_false_iff] at hfalse
    have hnil := taken_eq_nil_iff.2 hfalse.1
    rw [h.eq (by rw [hnil]; rfl) hfalse.2, hnil]
    rfl
  · intro htrue
    rw [hnull] at htrue
    simp only [List.length_cons]
    cases hhead : cs.head?.any isOctalDigit with
    | true =>
      have hpos : 0 < ((cs.takeWhile isOctalDigit).take 2).length := by
        rw [List.length_pos_iff]
        exact fun hnil => absurd (taken_eq_nil_iff.1 hnil) (by simp [hhead])
      omega
    | false =>
      rw [hhead, Bool.false_or] at htrue
      have hlt := h.length_lt htrue
      omega

end Decodes

theorem exists_decodes (h : LegalText cs) {n : Nat} (hn : n ≤ (cs.takeWhile isOctalDigit).length) :
    ∃ value value', Decodes n cs value value' := by
  -- on the text, for any number of digits that an escape before it takes in
  induction h generalizing n with
  | nil =>
    obtain rfl : n = 0 := by simpa using hn
    exact ⟨[], [], rfl, rfl, by simp, fun _ _ => rfl, fun h => by cases h⟩
  | @plain c cs hc _ ih =>
    cases n with
    | zero =>
      obtain ⟨v, v', h⟩ := ih (Nat.zero_le _)
      exact ⟨_, _, h.plain hc⟩
    | succ n =>
      cases hoctal : isOctalDigit c with
      | true =>
        rw [List.takeWhile_cons_of_pos hoctal, List.length_cons, Nat.add_le_add_iff_right] at hn
        obtain ⟨v, v', h⟩ := ih hn
        exact ⟨_, _, h.taken fun hslash => hc (by simp [hslash])⟩
      | false =>
        rw [List.takeWhile_cons_of_neg (by simp [hoctal])] at hn
        exact absurd hn (by simp)
  | @escape c cs hc _ ih =>
    obtain rfl : n = 0 := by simpa [isOctalDigit] using hn
    by_cases hzero : c = '0'
    · subst hzero
      obtain ⟨v, v', h⟩ := ih (n := ((cs.takeWhile isOctalDigit).take 2).length)
        (by rw [List.length_take]; exact Nat.min_le_right _ _)
      obtain ⟨d, hd⟩ := h.null
      exact ⟨_, _, hd⟩
    · have hsimple : c ∈ ['"', '\\', 'n', 'r', 't'] := by
        simp only [List.mem_cons, List.not_mem_nil, or_false] at hc ⊢
        tauto
      obtain ⟨v, v', h⟩ := ih (Nat.zero_le _)
      obtain ⟨d, hd⟩ := h.simple hsimple
      exact ⟨_, _, hd⟩

theorem toList_literal_string (text : String) :
    (literal (.string text)).toList = '"' :: (text.toList ++ ['"', 's']) := by
  simp [literal]

/-- **Strings keep their value but for one escape.** Wherever a string is read, its text is what stands
between the quotes. That text has a value in the language and, as it is written, in C++; the two are
the same exactly if no octal digit stands right behind an escaped null character. -/
theorem decode_literal_iff {i j : Cursor} {m : Mark} {text : String}
    (h : Grammar.string i = .done (.string text) j m) :
    i.chars = '"' :: (text.toList ++ '"' :: j.chars) ∧
    ∃ value value', decodeText text.toList = some value ∧
      decodeLiteral (literal (.string text)).toList = some value' ∧
      (value' = value ↔ hasNullBeforeOctal text.toList = false) := by
  have hlegal : LegalText text.toList := (Grammar.gives_string h).2
  obtain ⟨v, v', hv⟩ := exists_decodes hlegal (Nat.zero_le _)
  obtain ⟨_, htext, hchars⟩ := Grammar.exists_text_of_string h
  cases htext
  refine ⟨hchars, v, v', hv.source, ?_, ?_, hv.eq rfl⟩
  · rw [toList_literal_string]
    exact hv.target
  · rintro rfl
    by_contra hnull
    exact absurd (hv.length_lt (by simpa using hnull)) (Nat.lt_irrefl _)

/-- A null character before a letter, and an escaped backslash before digits. -/
def nullBeforeLetter : String := "\\0x\\\\01"

theorem decode_literal_iff_backslash : ∃ i j m,
    Grammar.string i = .done (.string nullBeforeLetter) j m ∧
    decodeText nullBeforeLetter.toList = some ['\x00', 'x', '\\', '0', '1'] ∧
    decodeLiteral (literal (.string nullBeforeLetter)).toList = decodeText nullBeforeLetter.toList := by
  have hlegal : LegalText nullBeforeLetter.toList :=
    .escape (by decide) (.plain (by decide) (.escape (by decide) (.plain (by decide)
      (.plain (by decide) .nil))))
  have hreads : Grammar.string.Reads _ [] _ := Grammar.reads_string hlegal
  obtain ⟨_, m, hread, rfl⟩ := hreads
  obtain ⟨-, v, v', hv, hv', hiff⟩ := decode_literal_iff hread
  refine ⟨_, _, m, hread, by decide +kernel, ?_⟩
  rw [hv, hv', hiff.2 (by decide +kernel)]

/-- Before the digit one, the escape for the null character becomes that for another character. -/
theorem decode_literal_digit : ∃ i j m, Grammar.string i = .done (.string "\\01") j m ∧
    decodeText "\\01".toList = some ['\x00', '1'] ∧
    decodeLiteral (literal (.string "\\01")).toList = some ['\x01'] := by
  have hlegal : LegalText "\\01".toList := .escape (by decide) (.plain (by decide) .nil)
  have hreads : Grammar.string.Reads _ [] _ := Grammar.reads_string hlegal
  obtain ⟨_, m, hread, rfl⟩ := hreads
  exact ⟨_, _, m, hread, by decide +kernel, by decide +kernel⟩

end Target

end Primer
