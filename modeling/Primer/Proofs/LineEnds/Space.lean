import Primer.Proofs.RoundTrip.Lexical

/-!
Where the productions for space end, as functions on the text. `skipBlank false` passes over the space
and the closed block comments within a line, `skipBlank true` also over line ends and line comments;
`afterLine?` is what remains after the rest of a line, its end, and the blank lines that follow.
-/

namespace Primer

/-- A character of a line comment. -/
def isLineChar (c : Char) : Bool := c != '\r' && c != '\n'

/-- What follows the end of the block comment within which the text starts. -/
def afterBlock? : List Char → Option (List Char)
  | [] => none
  | '*' :: '/' :: cs => some cs
  | _ :: cs => afterBlock? cs

/-- What follows a character of space or a comment; line ends and line comments count if `lines`. -/
def afterPiece? (lines : Bool) : List Char → Option (List Char)
  | [] => none
  | '/' :: '*' :: cs => afterBlock? cs
  | '/' :: '/' :: cs => if lines then some (cs.dropWhile isLineChar) else none
  | c :: cs => if isInlineSpace c || lines && c == '\n' then some cs else none

/-- Comments start with a slash, and anything else that is passed over is one character of space. -/
theorem afterPiece?_cons {lines : Bool} {c : Char} (hc : c ≠ '/') (cs : List Char) :
    afterPiece? lines (c :: cs) =
      if isInlineSpace c || lines && c == '\n' then some cs else none := by
  unfold afterPiece?
  split
  case h_1 h => cases h
  case h_2 h =>
    cases h
    exact absurd rfl hc
  case h_3 h =>
    cases h
    exact absurd rfl hc
  case h_4 h =>
    cases h
    rfl

/-- The text starts with a character of space or a comment, which the rest follows. -/
inductive Piece (lines : Bool) : List Char → List Char → Prop where
  | block (h : afterBlock? cs = some rest) : Piece lines ('/' :: '*' :: cs) rest
  | remark (h : lines = true) : Piece lines ('/' :: '/' :: cs) (cs.dropWhile isLineChar)
  | space (h : isInlineSpace c = true) : Piece lines (c :: rest) rest
  | newline (h : lines = true) : Piece lines ('\n' :: rest) rest

/-- The text starts with none. -/
inductive NoPiece (lines : Bool) : List Char → Prop where
  | nil : NoPiece lines []
  | block (h : afterBlock? cs = none) : NoPiece lines ('/' :: '*' :: cs)
  | remark (h : lines = false) : NoPiece lines ('/' :: '/' :: cs)
  | slash (h : ∀ c ∈ cs.head?, c ≠ '/' ∧ c ≠ '*') : NoPiece lines ('/' :: cs)
  | other (hslash : c ≠ '/') (hspace : isInlineSpace c = false)
      (hline : lines = true → c ≠ '\n') : NoPiece lines (c :: cs)

/-- The function in the form of a relation, with a case for each kind of space. -/
theorem piece_of_afterPiece? {lines : Bool} {cs rest : List Char}
    (h : afterPiece? lines cs = some rest) : Piece lines cs rest := by
  unfold afterPiece? at h
  split at h
  · cases h
  · exact .block h
  · split at h
    case isTrue hlines =>
      cases h
      exact .remark hlines
    case isFalse => cases h
  · split at h
    case isTrue hc =>
      cases h
      simp only [Bool.or_eq_true, Bool.and_eq_true, beq_iff_eq] at hc
      rcases hc with hc | ⟨hlines, rfl⟩
      · exact .space hc
      · exact .newline hlines
    case isFalse => cases h

/-- The cases in which there is none. A line comment is passed over only where line ends are. -/
theorem noPiece_of_afterPiece? {lines : Bool} {cs : List Char}
    (h : afterPiece? lines cs = none) : NoPiece lines cs := by
  unfold afterPiece? at h
  split at h
  · exact .nil
  · exact .block h
  · split at h
    · cases h
    case isFalse hlines => exact .remark (Bool.eq_false_iff.2 hlines)
  case h_4 c cs hblock hremark =>
    split at h
    · cases h
    case isFalse hc =>
      simp only [Bool.or_eq_true, Bool.and_eq_true, beq_iff_eq, not_or, not_and] at hc
      by_cases hslash : c = '/'
      · subst hslash
        refine .slash fun d hd => ?_
        obtain ⟨t, rfl⟩ := List.head?_eq_some_iff.1 hd
        exact ⟨fun hd => hremark t rfl (by rw [hd]), fun hd => hblock t rfl (by rw [hd])⟩
      · exact .other hslash (Bool.eq_false_iff.2 hc.1) hc.2

theorem afterBlock?_suffix {cs rest : List Char} (h : afterBlock? cs = some rest) : rest <:+ cs := by
  fun_induction afterBlock? cs with
  | case1 => cases h
  | case2 cs =>
    cases h
    exact ⟨['*', '/'], rfl⟩
  | case3 c cs _ ih => exact (ih h).trans (List.suffix_cons c cs)

/-- At least one character is passed over. -/
theorem Piece.exists_cons {lines : Bool} {cs rest : List Char} (h : Piece lines cs rest) :
    ∃ c t, cs = c :: t ∧ rest <:+ t := by
  cases h with
  | block h => exact ⟨_, _, rfl, (afterBlock?_suffix h).trans (List.suffix_cons _ _)⟩
  | remark h => exact ⟨_, _, rfl, (List.dropWhile_suffix _).trans (List.suffix_cons _ _)⟩
  | space h => exact ⟨_, _, rfl, List.suffix_rfl⟩
  | newline h => exact ⟨_, _, rfl, List.suffix_rfl⟩

theorem Piece.suffix {lines : Bool} {cs rest : List Char} (h : Piece lines cs rest) : rest <:+ cs := by
  obtain ⟨c, t, rfl, ht⟩ := h.exists_cons
  exact ht.trans (List.suffix_cons c t)

theorem Piece.length_lt {lines : Bool} {cs rest : List Char} (h : Piece lines cs rest) :
    rest.length < cs.length := by
  obtain ⟨c, t, rfl, ht⟩ := h.exists_cons
  exact Nat.lt_succ_of_le ht.length_le

/-- The text behind the space and the comments at its start. -/
def skipBlank (lines : Bool) (cs : List Char) : List Char :=
  match _h : afterPiece? lines cs with
  | some rest => skipBlank lines rest
  | none => cs
termination_by cs.length
decreasing_by exact (piece_of_afterPiece? _h).length_lt

theorem skipBlank_of_some {lines : Bool} {cs rest : List Char}
    (h : afterPiece? lines cs = some rest) : skipBlank lines cs = skipBlank lines rest := by
  rw [skipBlank]
  split
  case h_1 rest' h' =>
    rw [h] at h'
    cases h'
    rfl
  case h_2 h' =>
    rw [h] at h'
    cases h'

theorem skipBlank_of_none {lines : Bool} {cs : List Char} (h : afterPiece? lines cs = none) :
    skipBlank lines cs = cs := by
  rw [skipBlank]
  split
  case h_1 h' =>
    rw [h] at h'
    cases h'
  case h_2 => rfl

/-- With `NoPiece.skipBlank_eq` these are the two equations of `skipBlank`. -/
theorem Piece.skipBlank_eq {lines : Bool} {cs rest : List Char} (h : Piece lines cs rest) :
    skipBlank lines cs = skipBlank lines rest := by
  apply skipBlank_of_some
  cases h with
  | block h => exact h
  | remark h => exact if_pos h
  | space h =>
    rw [afterPiece?_cons (by rintro rfl; cases h), h]
    rfl
  | newline h =>
    rw [afterPiece?_cons (by decide), h]
    rfl

theorem NoPiece.skipBlank_eq {lines : Bool} {cs : List Char} (h : NoPiece lines cs) :
    skipBlank lines cs = cs := by
  apply skipBlank_of_none
  cases h with
  | nil => rfl
  | block h => exact h
  | remark h => exact if_neg (by simp [h])
  | @slash cs h =>
    cases cs with
    | nil => simp [afterPiece?, isInlineSpace]
    | cons d cs =>
      obtain ⟨hslash, hstar⟩ := h d rfl
      unfold afterPiece?
      split
      case h_1 h => cases h
      case h_2 h => cases h; exact absurd rfl hstar
      case h_3 h => cases h; exact absurd rfl hslash
      case h_4 h => cases h; simp [isInlineSpace]
  | other hslash hspace hline =>
    rw [afterPiece?_cons hslash, hspace]
    simpa using hline

/-- What holds of a text without space at its start, and of one with space if it holds of what
follows. -/
theorem skipBlank_induction (lines : Bool) {motive : List Char → Prop}
    (piece : ∀ cs rest, Piece lines cs rest → motive rest → motive cs)
    (none : ∀ cs, NoPiece lines cs → motive cs) (cs : List Char) : motive cs := by
  fun_induction skipBlank lines cs with
  | case1 cs rest h ih => exact piece cs rest (piece_of_afterPiece? h) ih
  | case2 cs h => exact none cs (noPiece_of_afterPiece? h)

theorem skipBlank_suffix (lines : Bool) (cs : List Char) : skipBlank lines cs <:+ cs := by
  induction cs using skipBlank_induction lines with
  | piece cs rest h ih =>
    rw [h.skipBlank_eq]
    exact ih.trans h.suffix
  | none cs h => rw [h.skipBlank_eq]

/-! ## Comments -/

/-- Where a part is found it stands. -/
theorem prefix_of_firstIndex? {part cs : List Char} (h : firstIndex? part cs = some n) :
    part <+: cs.drop n := by
  induction cs generalizing n with
  | nil => cases h
  | cons c cs ih =>
    rw [firstIndex?] at h
    split at h
    case isTrue hpart =>
      cases h
      exact List.isPrefixOf_iff_prefix.1 hpart
    case isFalse =>
      obtain ⟨m, hm, rfl⟩ := Option.map_eq_some_iff.1 h
      exact ih hm

/-- The end of a block comment is searched for as a text. -/
theorem afterBlock?_eq (cs : List Char) :
    afterBlock? cs = (firstIndex? "*/".toList cs).map fun n => cs.drop (n + 2) := by
  fun_induction afterBlock? cs with
  | case1 => rfl
  | case2 cs => simp [firstIndex?]
  | case3 c cs hne ih =>
    have hpart : ¬ ("*/".toList).isPrefixOf (c :: cs) = true := by
      rw [List.isPrefixOf_iff_prefix]
      rintro ⟨t, ht⟩
      cases ht
      exact hne t rfl rfl
    rw [ih, firstIndex?, if_neg hpart, Option.map_map]
    rfl

namespace Grammar

open Primer.Parser

variable {cs rest : List Char}

theorem reads_blockComment (h : afterBlock? cs = some rest) :
    Reads blockComment ('/' :: '*' :: cs) rest fun _ => True := by
  rw [afterBlock?_eq] at h
  obtain ⟨n, hn, rfl⟩ := Option.map_eq_some_iff.1 h
  obtain ⟨t, ht⟩ := prefix_of_firstIndex? hn
  have huntil : Reads (skipUntil "*/") cs (cs.drop n) fun _ => True :=
    ⟨(), none, by simp only [skipUntil, Cursor.chars_ofChars, hn, Cursor.skip_ofChars], trivial⟩
  have hrest : cs.drop (n + 2) = t := by
    rw [← List.drop_drop, ← ht]
    rfl
  refine .bind (.text (s := "/*") rfl) fun _ _ => .bind huntil fun _ _ => .text ?_
  rw [hrest, ht]

/-- A block comment without an end is no comment, and not an error either. -/
theorem misses_blockComment_of_open (h : afterBlock? cs = none) :
    Misses blockComment ('/' :: '*' :: cs) := by
  rw [afterBlock?_eq, Option.map_eq_none_iff] at h
  refine .bind_of_reads (.text (s := "/*") rfl) fun _ _ => .bind ⟨some (byteCount cs), ?_⟩
  simp only [skipUntil, Cursor.chars_ofChars, h]
  rfl

theorem misses_blockComment_of_next (h : ∀ c ∈ cs.head?, c ≠ '*') :
    Misses blockComment ('/' :: cs) := by
  refine .bind (.text ?_)
  rintro ⟨t, ht⟩
  cases ht
  exact h '*' rfl rfl

theorem dropWhile_head {t : Char → Bool} (cs : List Char) :
    ∀ c ∈ (cs.dropWhile t).head?, t c = false := by
  intro c hc
  have h := List.head?_dropWhile_not t cs
  rw [hc] at h
  exact h

theorem reads_lineComment :
    Reads lineComment ('/' :: '/' :: cs) (cs.dropWhile isLineChar) fun _ => True := by
  have h := Reads.takeWhile (List.all_eq_true.1 (List.all_takeWhile (l := cs)))
    (dropWhile_head (t := isLineChar) cs)
  rw [List.takeWhile_append_dropWhile] at h
  exact .bind (.text (s := "//") rfl) fun _ _ => .discard h

theorem misses_lineComment_of_next (h : ∀ c ∈ cs.head?, c ≠ '/') :
    Misses lineComment ('/' :: cs) := by
  refine .bind (.text ?_)
  rintro ⟨t, ht⟩
  cases ht
  exact h '/' rfl rfl

/-! ## Space and line ends -/

section
variable {lines : Bool} {t : Char → Bool} {comment : Parser Unit}
variable (ht : ∀ c, t c = (isInlineSpace c || lines && c == '\n'))
variable (hcomment : ∀ cs rest, afterPiece? lines ('/' :: cs) = some rest →
  Reads comment ('/' :: cs) rest fun _ => True)
variable (hnone : ∀ cs, afterPiece? lines ('/' :: cs) = none → Misses comment ('/' :: cs))
variable (hother : ∀ cs : List Char, cs.head? ≠ some '/' → Misses comment cs)

include ht in
/-- Runs of space are passed over at once or character by character. -/
theorem skipBlank_dropWhile (cs : List Char) :
    skipBlank lines (cs.dropWhile t) = skipBlank lines cs := by
  induction cs with
  | nil => rfl
  | cons c cs ih =>
    by_cases hc : t c = true
    · have hslash : c ≠ '/' := by
        rintro rfl
        simp [ht, isInlineSpace] at hc
      have hpiece : afterPiece? lines (c :: cs) = some cs := by
        rw [afterPiece?_cons hslash, ← ht, if_pos hc]
      rw [List.dropWhile_cons_of_pos hc, ih, skipBlank_of_some hpiece]
    · rw [List.dropWhile_cons_of_neg hc]

include ht hcomment hnone hother in
/-- A run of space or a comment is passed over, or there is none. -/
theorem reads_piece (cs : List Char) :
    (∃ rest, Reads (discard (takeWhile1 t) <|> comment) cs rest (fun _ => True) ∧
      byteCount rest < byteCount cs ∧ skipBlank lines cs = skipBlank lines rest) ∨
    Misses (discard (takeWhile1 t) <|> comment) cs ∧ skipBlank lines cs = cs := by
  cases cs with
  | nil => exact .inr ⟨.orElse (.discard (.takeWhile1 (by simp))) (hother [] (by simp)),
      skipBlank_of_none rfl⟩
  | cons c cs =>
    by_cases hc : t c = true
    · refine .inl ⟨(c :: cs).dropWhile t, ?_, ?_, (skipBlank_dropWhile ht _).symm⟩
      · have hne : (c :: cs).takeWhile t ≠ [] := by simp [hc]
        have hread := Reads.takeWhile1 hne
          (List.all_eq_true.1 (List.all_takeWhile (l := c :: cs))) (dropWhile_head (c :: cs))
        rw [List.takeWhile_append_dropWhile] at hread
        exact hread.discard.orElse
      · refine byteCount_lt_of_suffix (List.dropWhile_suffix t) ?_
        rw [List.dropWhile_cons_of_pos hc]
        exact Nat.lt_succ_of_le (List.dropWhile_suffix t).length_le
    · have hrun : Misses (discard (takeWhile1 t)) (c :: cs) := .discard (.takeWhile1 fun d hd => by
        cases hd
        exact Bool.eq_false_iff.2 hc)
      by_cases hslash : c = '/'
      · subst hslash
        cases hpiece : afterPiece? lines ('/' :: cs) with
        | some rest =>
          have h := piece_of_afterPiece? hpiece
          exact .inl ⟨rest, hrun.orElse_reads (hcomment cs rest hpiece),
            byteCount_lt_of_suffix h.suffix h.length_lt, skipBlank_of_some hpiece⟩
        | none => exact .inr ⟨hrun.orElse (hnone cs hpiece), skipBlank_of_none hpiece⟩
      · refine .inr ⟨hrun.orElse (hother _ (by simpa using hslash)), skipBlank_of_none ?_⟩
        rw [afterPiece?_cons hslash, ← ht, if_neg hc]

include ht hcomment hnone hother in
theorem reads_manyWithin_skipBlank {n : Nat} (earlier : List Unit) {cs : List Char}
    (hn : byteCount cs < n) :
    Reads (manyWithin (fun _ => discard (takeWhile1 t) <|> comment) n earlier) cs
      (skipBlank lines cs) fun _ => True := by
  induction n generalizing earlier cs with
  | zero => exact absurd hn (Nat.not_lt_zero _)
  | succ n ih =>
    rcases reads_piece ht hcomment hnone hother cs with
      ⟨rest, ⟨a, m, ha, -⟩, hlt, hskip⟩ | ⟨⟨m, hm⟩, hskip⟩
    · obtain ⟨as, m', has, -⟩ := ih (a :: earlier) (show byteCount rest < n by omega)
      refine ⟨a :: as, m.join m', ?_, trivial⟩
      have hne : byteCount rest ≠ byteCount cs := by omega
      simp only [manyWithin, ha, has, Cursor.bytes_ofChars, if_neg hne, hskip]
    · exact ⟨[], m, by simp only [manyWithin, hm, hskip], trivial⟩

include ht hcomment hnone hother in
/-- What `space` and `blank` have in common: they differ in the characters and in the comments. -/
theorem reads_skipBlank (cs : List Char) :
    Reads (discard (many (discard (takeWhile1 t) <|> comment))) cs (skipBlank lines cs)
      fun _ => True :=
  .discard (reads_manyWithin_skipBlank ht hcomment hnone hother [] (Nat.lt_succ_self _))

end

theorem reads_space_skip (cs : List Char) : Reads space cs (skipBlank false cs) fun _ => True := by
  refine reads_skipBlank (by simp) (fun cs rest h => ?_) (fun cs h => ?_)
    (fun _ => misses_blockComment) cs
  · cases piece_of_afterPiece? h with
    | block h => exact reads_blockComment h
    | remark h => cases h
    | space hc => exact absurd hc (by decide)
  · cases noPiece_of_afterPiece? h with
    | block h => exact misses_blockComment_of_open h
    | remark _ => exact misses_blockComment_of_next (by simp)
    | slash h => exact misses_blockComment_of_next fun c hc => (h c hc).2
    | other h _ _ => exact absurd rfl h

theorem reads_blank_skip (cs : List Char) : Reads blank cs (skipBlank true cs) fun _ => True := by
  refine reads_skipBlank (by simp [isSpace, isInlineSpace]) (fun cs rest h => ?_) (fun cs h => ?_)
    (fun _ h => .orElse (misses_lineComment h) (misses_blockComment h)) cs
  · cases piece_of_afterPiece? h with
    | block h => exact (misses_lineComment_of_next (by simp)).orElse_reads (reads_blockComment h)
    | remark _ => exact reads_lineComment.orElse
    | space hc => exact absurd hc (by decide)
  · cases noPiece_of_afterPiece? h with
    | block h =>
      exact (misses_lineComment_of_next (by simp)).orElse (misses_blockComment_of_open h)
    | remark h => cases h
    | slash h =>
      exact (misses_lineComment_of_next fun c hc => (h c hc).1).orElse
        (misses_blockComment_of_next fun c hc => (h c hc).2)
    | other h _ _ => exact absurd rfl h

end Grammar

/-- The text behind the line comment at its start, if one starts there. -/
def afterRemark : List Char → List Char
  | '/' :: '/' :: cs => cs.dropWhile isLineChar
  | cs => cs

/-- What follows the line end at the start of the text and the blank lines behind it. The end of the
text ends a line too. -/
def afterNewline? : List Char → Option (List Char)
  | [] => some []
  | '\n' :: cs => some (skipBlank true cs)
  | _ => none

/-- What follows the rest of a line without code, its end, and the blank lines behind it. -/
def afterLine? (cs : List Char) : Option (List Char) :=
  afterNewline? (afterRemark (skipBlank false cs))

namespace Grammar

open Primer.Parser

variable {cs rest : List Char}

theorem reads_afterRemark (cs : List Char) :
    Reads (discard (maybe lineComment)) cs (afterRemark cs) fun _ => True := by
  unfold afterRemark
  split
  case h_1 cs => exact .discard (.maybe_some reads_lineComment)
  case h_2 hne =>
    refine .discard (.maybe_none (.bind (.text ?_)))
    rintro ⟨t, ht⟩
    exact hne t ht.symm

/-- The production for line ends goes where the function says. -/
theorem reads_lineEnd_of_afterLine? (h : afterLine? cs = some rest) :
    Reads lineEnd cs rest fun _ => True := by
  refine .bind (reads_space_skip cs) fun _ _ => .bind (reads_afterRemark _) fun _ _ => ?_
  rw [afterLine?] at h
  generalize afterRemark (skipBlank false cs) = line at h
  unfold afterNewline? at h
  split at h
  case h_1 =>
    cases h
    refine .bind (Misses.orElse_reads (.discard (.char (by simp))) .atEnd) fun _ _ => ?_
    have hblank := reads_blank_skip []
    rwa [NoPiece.nil.skipBlank_eq] at hblank
  case h_2 t =>
    cases h
    exact .bind (.orElse (.discard .char)) fun _ _ => reads_blank_skip t
  case h_3 => cases h

/-- It misses where the function gives nothing. -/
theorem misses_lineEnd_of_afterLine? (h : afterLine? cs = none) : Misses lineEnd cs := by
  refine .bind_of_reads (reads_space_skip cs) fun _ _ => ?_
  refine .bind_of_reads (reads_afterRemark _) fun _ _ => .bind ?_
  rw [afterLine?] at h
  generalize afterRemark (skipBlank false cs) = line at h
  unfold afterNewline? at h
  split at h
  case h_1 => cases h
  case h_2 => cases h
  case h_3 _ hnil hline =>
    refine .orElse (.discard (.char fun hc => ?_)) ⟨some (byteCount line), ?_⟩
    · obtain ⟨t, ht⟩ := List.head?_eq_some_iff.1 hc
      exact hline t ht
    · rw [atEnd, if_neg (by simpa using hnil)]
      rfl

theorem afterRemark_suffix (cs : List Char) : afterRemark cs <:+ cs := by
  unfold afterRemark
  split
  case h_1 cs => exact (List.dropWhile_suffix _).trans (List.suffix_append ['/', '/'] cs)
  case h_2 => exact List.suffix_rfl

theorem afterLine?_suffix (h : afterLine? cs = some rest) : rest <:+ cs := by
  refine List.IsSuffix.trans ?_ ((afterRemark_suffix _).trans (skipBlank_suffix false cs))
  rw [afterLine?] at h
  generalize afterRemark (skipBlank false cs) = line at h
  unfold afterNewline? at h
  split at h
  case h_1 =>
    cases h
    exact List.suffix_rfl
  case h_2 t =>
    cases h
    exact (skipBlank_suffix true t).trans (List.suffix_cons _ t)
  case h_3 => cases h

/-- What is expected and missing is reported behind the space, not before it. -/
theorem expect_of_misses {p : Parser α} {i : Cursor} (item : String) (h : Misses p i.chars) :
    expect item p i = .halt ⟨.expected item, (behindSpace i).position⟩ := by
  obtain ⟨m, hm⟩ := h
  rw [Cursor.ofChars_chars] at hm
  rw [expect, hm]
  rfl

theorem behindSpace_eq (i : Cursor) : behindSpace i = .ofChars (skipBlank false i.chars) := by
  obtain ⟨a, m, h, -⟩ := reads_space_skip i.chars
  rw [Cursor.ofChars_chars] at h
  rw [behindSpace, h]

end Grammar

end Primer
