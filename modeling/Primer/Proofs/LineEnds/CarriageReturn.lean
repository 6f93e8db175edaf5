import Primer.Proofs.LineEnds.Space
import Primer.Proofs.Respacing.Program

/-!
Texts in which a carriage return stands before every line feed. Where such a text is read, carriage
returns count as space, except that one of them ends a line comment; the line feed behind it is then
not where the end of the line is looked for. `remarkBehindCode` tells whether that happens: whether a
line comment behind code is followed by another line. The two texts correspond as a `Respacing` does,
with a reading of the second that breaks off if there is such a comment.
-/

namespace Primer

/-- The characters with a carriage return before every line feed. -/
def crlf (cs : List Char) : List Char :=
  cs.flatMap fun c => if c = '\n' then ['\r', '\n'] else [c]

/-- The same from the second character on. -/
def settled : List Char → List Char
  | [] => []
  | c :: cs => c :: crlf cs

@[simp] theorem crlf_nil : crlf [] = [] := rfl

@[simp] theorem crlf_newline (cs : List Char) : crlf ('\n' :: cs) = '\r' :: '\n' :: crlf cs := rfl

theorem crlf_cons {c : Char} (hc : c ≠ '\n') (cs : List Char) : crlf (c :: cs) = c :: crlf cs := by
  simp [crlf, hc]

@[simp] theorem crlf_append (cs ds : List Char) : crlf (cs ++ ds) = crlf cs ++ crlf ds :=
  List.flatMap_append

theorem crlf_eq_nil_iff {cs : List Char} : cs = [] ↔ crlf cs = [] := by
  cases cs with
  | nil => simp
  | cons c cs => by_cases hc : c = '\n' <;> simp [crlf, hc]

theorem crlf_eq_settled {cs : List Char} (h : cs.head? ≠ some '\n') : crlf cs = settled cs := by
  cases cs with
  | nil => rfl
  | cons c cs => exact crlf_cons (fun hc => h (by rw [hc]; rfl)) cs

theorem head?_crlf {cs : List Char} {c : Char} (hr : c ≠ '\r') (hn : c ≠ '\n') :
    (crlf cs).head? = some c ↔ cs.head? = some c := by
  cases cs with
  | nil => rfl
  | cons d cs =>
    by_cases hd : d = '\n'
    · subst hd
      simp [hr.symm, hn.symm]
    · simp [crlf_cons hd]

/-- The text does not go on as a comment does behind its first sign. -/
def Uncommented (cs : List Char) : Prop := ∀ c ∈ cs.head?, c ≠ '/' ∧ c ≠ '*'

theorem Uncommented.crlf {cs : List Char} (h : Uncommented cs) : Uncommented (crlf cs) := by
  refine fun c hc => ⟨?_, ?_⟩
  · rintro rfl
    exact (h '/' ((head?_crlf (by decide) (by decide)).1 hc)).1 rfl
  · rintro rfl
    exact (h '*' ((head?_crlf (by decide) (by decide)).1 hc)).2 rfl

/-! ## Space -/

theorem afterBlock?_cons {c : Char} {cs : List Char} (h : c = '*' → cs.head? ≠ some '/') :
    afterBlock? (c :: cs) = afterBlock? cs := by
  rw [afterBlock?]
  rintro t rfl rfl
  exact h rfl rfl

theorem afterBlock?_crlf (cs : List Char) : afterBlock? (crlf cs) = (afterBlock? cs).map crlf := by
  fun_induction afterBlock? cs with
  | case1 => rfl
  | case2 cs => rfl
  | case3 c cs hne ih =>
    by_cases hc : c = '\n'
    · subst hc
      rw [crlf_newline, afterBlock?_cons (by simp), afterBlock?_cons (by simp), ih]
    · rw [crlf_cons hc, afterBlock?_cons, ih]
      rintro rfl hhead
      obtain ⟨t, rfl⟩ := List.head?_eq_some_iff.1 ((head?_crlf (by decide) (by decide)).1 hhead)
      exact hne t rfl rfl

theorem dropWhile_crlf (cs : List Char) :
    (crlf cs).dropWhile isLineChar = crlf (cs.dropWhile isLineChar) := by
  induction cs with
  | nil => rfl
  | cons c cs ih =>
    by_cases hc : c = '\n'
    · subst hc
      rfl
    · by_cases hline : isLineChar c = true
      · rw [crlf_cons hc, List.dropWhile_cons_of_pos hline, List.dropWhile_cons_of_pos hline, ih]
      · rw [crlf_cons hc, List.dropWhile_cons_of_neg hline, List.dropWhile_cons_of_neg hline,
          crlf_cons hc]

theorem dropWhile_isLineChar {cs : List Char} (h : '\r' ∉ cs) :
    ('\n' ∉ cs ∧ cs.dropWhile isLineChar = []) ∨
      ('\n' ∈ cs ∧ ∃ rest, cs.dropWhile isLineChar = '\n' :: rest) := by
  induction cs with
  | nil => exact .inl ⟨List.not_mem_nil, rfl⟩
  | cons c cs ih =>
    rw [List.mem_cons, not_or] at h
    by_cases hn : c = '\n'
    · subst hn
      exact .inr ⟨List.mem_cons_self, cs, rfl⟩
    · have hline : isLineChar c = true := by simp [isLineChar, hn, Ne.symm h.1]
      simpa [List.dropWhile_cons_of_pos hline, Ne.symm hn] using ih h.2

theorem skipBlank_return (lines : Bool) (cs : List Char) :
    skipBlank lines ('\r' :: cs) = skipBlank lines cs := (Piece.space rfl).skipBlank_eq

/-- The space that is passed over takes in the carriage return of a line end behind it. -/
theorem skipBlank_crlf (lines : Bool) (cs : List Char) :
    skipBlank lines (crlf cs) = settled (skipBlank lines cs) := by
  induction cs using skipBlank_induction lines with
  | piece cs rest h ih =>
    rw [h.skipBlank_eq, ← ih]
    cases h with
    | @block cs _ h =>
      have hcrlf : afterBlock? (crlf cs) = some (crlf rest) := by rw [afterBlock?_crlf, h, Option.map]
      exact (Piece.block hcrlf).skipBlank_eq
    | @remark cs h =>
      rw [← dropWhile_crlf]
      exact (Piece.remark h).skipBlank_eq
    | space hc =>
      rw [crlf_cons (by rintro rfl; cases hc)]
      exact (Piece.space hc).skipBlank_eq
    | newline h =>
      rw [crlf_newline, skipBlank_return]
      exact (Piece.newline h).skipBlank_eq
  | none cs h =>
    rw [h.skipBlank_eq]
    cases h with
    | nil => exact NoPiece.nil.skipBlank_eq
    | @block cs h =>
      have hcrlf : afterBlock? (crlf cs) = none := by rw [afterBlock?_crlf, h, Option.map]
      exact (NoPiece.block hcrlf).skipBlank_eq
    | remark h => exact (NoPiece.remark h).skipBlank_eq
    | slash h => exact (NoPiece.slash (Uncommented.crlf h)).skipBlank_eq
    | @other c cs hslash hspace hline =>
      by_cases hc : c = '\n'
      · subst hc
        rw [crlf_newline, skipBlank_return]
        exact (NoPiece.other hslash hspace hline).skipBlank_eq
      · rw [crlf_cons hc]
        exact (NoPiece.other hslash hspace hline).skipBlank_eq

theorem skipBlank_settled (lines : Bool) (cs : List Char) :
    skipBlank lines (settled cs) = settled (skipBlank lines cs) := by
  rw [← skipBlank_crlf]
  by_cases h : cs.head? = some '\n'
  · obtain ⟨t, rfl⟩ := List.head?_eq_some_iff.1 h
    rw [crlf_newline, skipBlank_return]
    rfl
  · rw [crlf_eq_settled h]

/-! ## Line ends -/

theorem afterRemark_of_not_remark {cs : List Char} (h : ¬ ['/', '/'] <+: cs) :
    afterRemark cs = cs := by
  rw [afterRemark]
  rintro t rfl
  exact h (List.prefix_append ['/', '/'] t)

theorem remark_prefix_of_settled {cs : List Char} (h : ['/', '/'] <+: settled cs) :
    ['/', '/'] <+: cs := by
  cases cs with
  | nil => exact h
  | cons c cs =>
    obtain ⟨rfl, t, ht⟩ := List.cons_prefix_cons.1 h
    have hcrlf : (crlf cs).head? = some '/' := by
      rw [← ht]
      rfl
    obtain ⟨u, rfl⟩ := List.head?_eq_some_iff.1 ((head?_crlf (by decide) (by decide)).1 hcrlf)
    exact ⟨u, rfl⟩

theorem afterNewline?_settled (cs : List Char) :
    afterNewline? (settled cs) = (afterNewline? cs).map settled := by
  cases cs with
  | nil => rfl
  | cons c cs =>
    by_cases hc : c = '\n'
    · subst hc
      rw [settled, afterNewline?, afterNewline?, skipBlank_crlf]
      rfl
    · simp [settled, afterNewline?, hc]

/-! ## Comments behind code -/

/-- What a scan of a text has come to: the text of a line, with a flag for whether nothing but space
and comments stood on the line before; a line comment on a line of its own; a block comment; a
string, and an escape in it. -/
inductive Scan where
  | line (fresh : Bool)
  | remark
  | block (fresh : Bool)
  | quoted
  | escaped

/-- Whether a line comment that stands behind code is followed by another line. -/
def remarkBehindCode : Scan → List Char → Bool
  | _, [] => false
  | .line fresh, '/' :: '/' :: cs =>
    if fresh then remarkBehindCode .remark cs else cs.contains '\n'
  | .line fresh, '/' :: '*' :: cs => remarkBehindCode (.block fresh) cs
  | .line fresh, c :: cs =>
    if c = '"' then remarkBehindCode .quoted cs
    else if c = '\n' then remarkBehindCode (.line true) cs
    else remarkBehindCode (.line (fresh && isInlineSpace c)) cs
  | .remark, c :: cs =>
    if c = '\n' then remarkBehindCode (.line true) cs else remarkBehindCode .remark cs
  | .block fresh, '*' :: '/' :: cs => remarkBehindCode (.line fresh) cs
  | .block fresh, _ :: cs => remarkBehindCode (.block fresh) cs
  | .quoted, c :: cs =>
    if c = '"' then remarkBehindCode (.line false) cs
    else if c = '\\' then remarkBehindCode .escaped cs
    else remarkBehindCode .quoted cs
  | .escaped, _ :: cs => remarkBehindCode .quoted cs

namespace remarkBehindCode

variable {cs rest : List Char}

theorem line_cons {c : Char} (fresh : Bool) (h : c = '/' → Uncommented cs) :
    remarkBehindCode (.line fresh) (c :: cs) =
      if c = '"' then remarkBehindCode .quoted cs
      else if c = '\n' then remarkBehindCode (.line true) cs
      else remarkBehindCode (.line (fresh && isInlineSpace c)) cs := by
  rw [remarkBehindCode]
  · rintro t rfl rfl
    exact (h rfl '/' rfl).1 rfl
  · rintro t rfl rfl
    exact (h rfl '*' rfl).2 rfl

theorem line_plain {c : Char} (fresh : Bool) (hc : isPlain c = true) :
    remarkBehindCode (.line fresh) (c :: cs) = remarkBehindCode (.line false) cs := by
  have hne {d : Char} (hd : isPlain d = false) : c ≠ d := ne_of_test hc hd
  have hspace : isInlineSpace c = false := isSpace_of_isInlineSpace (by
    simp only [isPlain, Bool.and_eq_true, Bool.not_eq_true'] at hc
    exact hc.1.1)
  rw [line_cons fresh fun h => absurd h (hne (by decide)), if_neg (hne (by decide)),
    if_neg (hne (by decide)), hspace, Bool.and_false]

theorem block_eq (fresh : Bool) (h : afterBlock? cs = some rest) :
    remarkBehindCode (.block fresh) cs = remarkBehindCode (.line fresh) rest := by
  fun_induction afterBlock? cs with
  | case1 => cases h
  | case2 cs =>
    cases h
    rfl
  | case3 c cs hne ih =>
    rw [remarkBehindCode, ih h]
    exact hne

theorem remark_eq (h : '\r' ∉ cs) :
    remarkBehindCode .remark cs = remarkBehindCode (.line true) (cs.dropWhile isLineChar) := by
  induction cs with
  | nil => rfl
  | cons c cs ih =>
    rw [List.mem_cons, not_or] at h
    obtain ⟨hc, hcs⟩ := h
    by_cases hn : c = '\n'
    · subst hn
      rfl
    · have hline : isLineChar c = true := by simp [isLineChar, hn, Ne.symm hc]
      rw [remarkBehindCode, if_neg hn, ih hcs, List.dropWhile_cons_of_pos hline]

/-- Space and comments do not change whether code has been seen on the line; only at the start of a
line do line ends and line comments count as such. -/
theorem piece_eq {lines fresh : Bool} (h : Piece lines cs rest) (hfresh : lines = true → fresh = true)
    (hcs : '\r' ∉ cs) :
    remarkBehindCode (.line fresh) cs = remarkBehindCode (.line fresh) rest := by
  cases h with
  | block h => exact block_eq fresh h
  | remark h =>
    rw [hfresh h]
    exact remark_eq fun hmem => hcs (List.mem_cons_of_mem _ (List.mem_cons_of_mem _ hmem))
  | @space c _ hc =>
    have hne {d : Char} (hd : isInlineSpace d = false) : c ≠ d := ne_of_test hc hd
    rw [line_cons fresh fun h => absurd h (hne (by decide)), if_neg (hne (by decide)),
      if_neg (hne (by decide)), hc, Bool.and_true]
  | newline h => rw [hfresh h]; rfl

theorem skipBlank_eq {lines fresh : Bool} (hfresh : lines = true → fresh = true) (hcs : '\r' ∉ cs) :
    remarkBehindCode (.line fresh) (skipBlank lines cs) = remarkBehindCode (.line fresh) cs := by
  induction cs using skipBlank_induction lines with
  | piece cs rest h ih =>
    rw [h.skipBlank_eq, ih fun hmem => hcs (h.suffix.subset hmem), piece_eq h hfresh hcs]
  | none cs h => rw [h.skipBlank_eq]

/-- Behind a line end the line is a fresh one. -/
theorem afterNewline?_eq (fresh : Bool) (hcs : '\r' ∉ cs) (h : afterNewline? cs = some rest) :
    remarkBehindCode (.line true) rest = remarkBehindCode (.line fresh) cs := by
  unfold afterNewline? at h
  split at h
  case h_1 =>
    cases h
    rfl
  case h_2 t =>
    cases h
    exact skipBlank_eq (fun _ => rfl) fun hmem => hcs (List.mem_cons_of_mem _ hmem)
  case h_3 => cases h

/-- A text without line comments has none behind code. -/
theorem eq_false (scan : Scan) (h : ¬ ['/', '/'] <:+: cs) : remarkBehindCode scan cs = false := by
  have hcons {c : Char} {t : List Char} (h : ¬ ['/', '/'] <:+: c :: t) : ¬ ['/', '/'] <:+: t :=
    fun hpart => h (hpart.trans (List.suffix_cons c t).isInfix)
  fun_induction remarkBehindCode scan cs with
  | case1 => rfl
  | case2 | case3 => exact absurd (List.prefix_append ['/', '/'] _).isInfix h
  | case4 | case10 =>
    rename_i ih
    exact ih (hcons (hcons h))
  | _ =>
    rename_i ih
    exact ih (hcons h)

end remarkBehindCode

/-! ## The two texts -/

/-- Places in a text and in the one with carriage returns, and how the scan of what remains stands. -/
structure CrlfAt (s : List Char) (scan : Scan) (i j : Cursor) : Prop where
  suffix : i.chars <:+ s
  chars : j.chars = crlf i.chars ∨ j.chars = settled i.chars
  scan : remarkBehindCode scan i.chars = remarkBehindCode (.line true) s

namespace CrlfAt

variable {s : List Char} {scan scan' : Scan} {i j : Cursor} {c : Char}

theorem head (h : CrlfAt s scan i j) (hr : c ≠ '\r') (hn : c ≠ '\n') :
    i.chars.head? = some c ↔ j.chars.head? = some c := by
  rcases h.chars with hj | hj
  · rw [hj, head?_crlf hr hn]
  · rw [hj]
    cases i.chars <;> rfl

/-- The step over a character that ends no line. -/
theorem skip (h : CrlfAt s scan i j) (hc : i.chars.head? = some c) (hn : c ≠ '\n')
    (hscan : ∀ cs, i.chars = c :: cs →
      remarkBehindCode scan (c :: cs) = remarkBehindCode scan' cs) :
    CrlfAt s scan' (i.skip 1) (j.skip 1) := by
  obtain ⟨cs, hi⟩ := List.head?_eq_some_iff.1 hc
  have hj : j.chars = c :: crlf cs := by
    rcases h.chars with hj | hj
    · rw [hj, hi, crlf_cons hn]
    · rw [hj, hi, settled]
  refine ⟨(List.drop_suffix 1 _).trans h.suffix, .inl (by simp [hi, hj]), ?_⟩
  rw [← h.scan, hi, hscan cs hi]
  simp [hi]

/-- Characters that end no line stand at the same places in both texts. -/
theorem steps {t : Char → Bool} (ht : ∀ c, t c = true → c ≠ '\r' ∧ c ≠ '\n')
    (hscan : ∀ c cs, t c = true →
      remarkBehindCode scan (c :: cs) = remarkBehindCode scan' cs) :
    Parser.Parallel.Steps t (CrlfAt s scan) (CrlfAt s scan') where
  head h hc := h.head (ht _ hc).1 (ht _ hc).2
  skip h hc hi := h.skip hi (ht _ hc).2 fun cs _ => hscan _ cs hc

theorem skipBlank (h : CrlfAt s scan i j) (lines : Bool) :
    Primer.skipBlank lines j.chars = settled (Primer.skipBlank lines i.chars) := by
  rcases h.chars with hj | hj
  · rw [hj, skipBlank_crlf]
  · rw [hj, skipBlank_settled]

theorem place (h : CrlfAt s scan i j) (hi : i.chars.head? ≠ some '\n') :
    j.chars = settled i.chars := by
  rcases h.chars with hj | hj
  · rw [hj, crlf_eq_settled hi]
  · exact hj

end CrlfAt

namespace LineEnds

open Primer.Parser Primer.Grammar

/-- Errors stand at corresponding places, behind the carriage return of a line end. The second text
cannot be read if the first has a line comment behind code, followed by another line. -/
def comparison (s : List Char) : Comparison where
  Place i j := i.chars <:+ s ∧ j.chars = settled i.chars
  Lost := remarkBehindCode (.line true) s = true

variable {s : List Char} {n : Nat} {i j : Cursor}

theorem place_behindSpace {scan : Scan} (h : CrlfAt s scan i j) :
    (comparison s).Place (behindSpace i) (behindSpace j) := by
  rw [behindSpace_eq, behindSpace_eq, h.skipBlank]
  exact ⟨(skipBlank_suffix false _).trans h.suffix, rfl⟩

/-! ### Space -/

section
variable (hs : '\r' ∉ s)
include hs

/-- All that is blank ends at corresponding places, in a scan of the same standing. -/
theorem parallel_skipBlank {p : Parser Unit} {lines fresh : Bool}
    (hfresh : lines = true → fresh = true)
    (hp : ∀ cs, Reads p cs (skipBlank lines cs) fun _ => True) :
    Parallel (comparison s) n 0 (CrlfAt s (.line fresh)) p p (fun _ _ => True)
      (CrlfAt s (.line fresh)) := by
  intro i j _ h
  have hskip := h.skipBlank lines
  have hi := skipBlank_suffix lines i.chars
  have hj := skipBlank_suffix lines j.chars
  refine .of_reads (hp _) (hp _) (fun _ _ _ _ => trivial) ⟨⟨hi.trans h.suffix, .inr hskip, ?_⟩, ?_, ?_⟩
  · exact (remarkBehindCode.skipBlank_eq hfresh fun hmem => hs (h.suffix.subset hmem)).trans h.scan
  · rw [i.bytes_eq]
    exact byteCount_le_of_suffix hi
  · rw [j.bytes_eq]
    exact byteCount_le_of_suffix hj

/-- The rest of a line without code: it ends at corresponding places, or in neither text, or in the
first text only, where a line comment stands behind code. -/
theorem afterLine?_cases (h : CrlfAt s (.line false) i j) :
    (∃ rest, afterLine? i.chars = some rest ∧ afterLine? j.chars = some (settled rest) ∧
      remarkBehindCode (.line true) rest = remarkBehindCode (.line true) s) ∨
    (afterLine? i.chars = none ∧ afterLine? j.chars = none) ∨
    (remarkBehindCode (.line true) s = true ∧ afterLine? j.chars = none) := by
  have hcr : '\r' ∉ skipBlank false i.chars := fun hmem =>
    hs (h.suffix.subset ((skipBlank_suffix false _).subset hmem))
  have hscan : remarkBehindCode (.line false) (skipBlank false i.chars) =
      remarkBehindCode (.line true) s :=
    (remarkBehindCode.skipBlank_eq (by simp) fun hmem => hs (h.suffix.subset hmem)).trans h.scan
  rw [afterLine?, afterLine?, h.skipBlank, ← hscan]
  generalize skipBlank false i.chars = line at hcr
  by_cases hremark : ['/', '/'] <+: line
  · obtain ⟨t, rfl⟩ := hremark
    have hi : afterRemark (['/', '/'] ++ t) = t.dropWhile isLineChar := rfl
    -- the comment ends at a carriage return, where no line end is seen, or with the text
    have hj : afterRemark (settled (['/', '/'] ++ t)) = crlf (t.dropWhile isLineChar) :=
      dropWhile_crlf t
    have hbehind : remarkBehindCode (.line false) (['/', '/'] ++ t) = t.contains '\n' := rfl
    rw [hi, hj, hbehind]
    rcases dropWhile_isLineChar fun hmem => hcr (List.mem_append_right _ hmem) with
      ⟨hmem, hrest⟩ | ⟨hmem, rest, hrest⟩
    · have hlast : t.contains '\n' = false := by simpa using hmem
      rw [hrest]
      exact .inl ⟨[], rfl, rfl, hlast.symm⟩
    · rw [hrest]
      exact .inr (.inr ⟨by simpa using hmem, rfl⟩)
  · have hsettled : ¬ ['/', '/'] <+: settled line := fun h => hremark (remark_prefix_of_settled h)
    rw [afterRemark_of_not_remark hremark, afterRemark_of_not_remark hsettled,
      afterNewline?_settled]
    cases hline : afterNewline? line with
    | none => exact .inr (.inl ⟨rfl, rfl⟩)
    | some rest =>
      exact .inl ⟨rest, rfl, rfl, remarkBehindCode.afterNewline?_eq false hcr hline⟩

theorem parallel_lineEnd (item : String) :
    Parallel (comparison s) n 0 (CrlfAt s (.line false)) (expect item lineEnd) (expect item lineEnd)
      (fun _ _ => True) (CrlfAt s (.line true)) := by
  intro i j _ h
  rcases afterLine?_cases hs h with ⟨rest, hi, hj, hscan⟩ | ⟨hi, hj⟩ | ⟨hlost, hj⟩
  · refine .of_reads (.expect (reads_lineEnd_of_afterLine? hi))
      (.expect (reads_lineEnd_of_afterLine? hj)) (fun _ _ _ _ => trivial) ?_
    refine ⟨⟨(afterLine?_suffix hi).trans h.suffix, .inr rfl, hscan⟩, ?_, ?_⟩
    · rw [i.bytes_eq]
      exact byteCount_le_of_suffix (afterLine?_suffix hi)
    · rw [j.bytes_eq]
      exact byteCount_le_of_suffix (afterLine?_suffix hj)
  · rw [expect_of_misses item (misses_lineEnd_of_afterLine? hi),
      expect_of_misses item (misses_lineEnd_of_afterLine? hj)]
    exact .halt (place_behindSpace h)
  · rw [expect_of_misses item (misses_lineEnd_of_afterLine? hj)]
    exact .lost hlost

end

/-! ### Tokens and strings -/

/-- Places between tokens. -/
def Amid (s : List Char) (i j : Cursor) : Prop := ∃ fresh, CrlfAt s (.line fresh) i j

theorem steps_amid {t : Char → Bool} {scan : Scan} (ht : ∀ c, t c = true → c ≠ '\r' ∧ c ≠ '\n')
    (hscan : ∀ fresh c cs, t c = true →
      remarkBehindCode (.line fresh) (c :: cs) = remarkBehindCode scan cs) :
    Parallel.Steps t (Amid s) (CrlfAt s scan) where
  head := fun ⟨fresh, h⟩ => (CrlfAt.steps ht (hscan fresh)).head h
  skip := fun ⟨fresh, h⟩ => (CrlfAt.steps ht (hscan fresh)).skip h

theorem steps_plain : Parallel.Steps isPlain (Amid s) (CrlfAt s (.line false)) := by
  refine steps_amid (fun c hc => ?_) fun fresh c cs => remarkBehindCode.line_plain fresh
  exact ⟨ne_of_test hc (by decide), ne_of_test hc (by decide)⟩

theorem reads_divide {cs : List Char} (h : Uncommented cs) :
    Reads (operatorSign .divide) ('/' :: cs) cs fun _ => True := by
  refine .bind (.text (s := "/") rfl) fun _ _ => .notFollowedBy (.satisfy fun c hc => ?_)
  simpa using h c hc

theorem misses_divide {cs : List Char} {c : Char} (hc : cs.head? = some c) (h : c = '/' ∨ c = '*') :
    Misses (operatorSign .divide) ('/' :: cs) := by
  obtain ⟨t, rfl⟩ := List.head?_eq_some_iff.1 hc
  refine .bind_of_reads (.text (s := "/") rfl) fun _ _ => ?_
  exact .notFollowedBy (.satisfy (by simpa using h))

theorem parallel_divide : Parallel (comparison s) n 1 (Amid s) (operatorSign .divide)
    (operatorSign .divide) (fun _ _ => True) (CrlfAt s (.line false)) := by
  rintro i j _ ⟨fresh, h⟩
  have hhead := h.head (c := '/') (by decide) (by decide)
  by_cases hi : i.chars.head? = some '/'
  · obtain ⟨t, ht⟩ := List.head?_eq_some_iff.1 hi
    have hj : j.chars = '/' :: crlf t := by rw [h.place (by simp [hi]), ht, settled]
    -- a sign that starts a comment is no operator in either text
    by_cases hcomment : ∃ c ∈ t.head?, c = '/' ∨ c = '*'
    · obtain ⟨c, hc, hcomment⟩ := hcomment
      have hc' : (crlf t).head? = some c := by
        rcases hcomment with rfl | rfl <;> exact (head?_crlf (by decide) (by decide)).2 hc
      refine .of_misses ?_ ?_
      · rw [ht]
        exact misses_divide hc hcomment
      · rw [hj]
        exact misses_divide hc' hcomment
    · have hfree : Uncommented t := by simpa [Uncommented] using hcomment
      have hskip : CrlfAt s (.line false) (i.skip 1) (j.skip 1) := h.skip hi (by decide) fun cs hcs => by
        rw [ht] at hcs
        cases hcs
        exact (remarkBehindCode.line_cons fresh fun _ => hfree).trans (by simp [isInlineSpace])
      have hread : Reads (operatorSign .divide) i.chars (i.skip 1).chars fun _ => True := by
        simpa [ht] using reads_divide hfree
      have hread' : Reads (operatorSign .divide) j.chars (j.skip 1).chars fun _ => True := by
        simpa [hj] using reads_divide hfree.crlf
      refine .of_reads hread hread' (fun _ _ _ _ => trivial) ?_
      rw [Cursor.ofChars_chars, Cursor.ofChars_chars]
      exact ⟨hskip, Cursor.bytes_skip_one_lt hi, Cursor.bytes_skip_one_lt (hhead.1 hi)⟩
  · refine .of_misses (.bind (.text_of_head rfl hi)) (.bind (.text_of_head rfl ?_))
    exact fun hj => hi (hhead.2 hj)

theorem parallel_openQuote : Parallel (comparison s) n 1 (Amid s) (char '"') (char '"') Eq
    (CrlfAt s .quoted) := by
  refine .char (steps_amid (fun c hc => ?_) fun fresh c cs hc => ?_)
  · rw [beq_iff_eq.1 hc]
    decide
  · rw [beq_iff_eq.1 hc, remarkBehindCode.line_cons fresh (by simp), if_pos rfl]

theorem parallel_closeQuote : Parallel (comparison s) n 1 (CrlfAt s .quoted) (char '"') (char '"') Eq
    (CrlfAt s (.line false)) := by
  refine .char (CrlfAt.steps (fun c hc => ?_) fun c cs hc => ?_)
  · rw [beq_iff_eq.1 hc]
    decide
  · rw [beq_iff_eq.1 hc]
    rfl

theorem parallel_stringItem : Parallel (comparison s) n 1 (CrlfAt s .quoted) stringItem stringItem Eq
    (CrlfAt s .quoted) := by
  have hplain : Parallel.Steps (fun c => !(['\\', '"', '\r', '\n'].contains c)) (CrlfAt s .quoted)
      (CrlfAt s .quoted) := by
    refine CrlfAt.steps (fun c hc => ?_) fun c cs hc => ?_
    · simp at hc
      exact hc.2.2
    · simp at hc
      simp [remarkBehindCode, hc]
  have hslash : Parallel.Steps (· == '\\') (CrlfAt s .quoted) (CrlfAt s .escaped) := by
    refine CrlfAt.steps (fun c hc => ?_) fun c cs hc => ?_
    · rw [beq_iff_eq.1 hc]
      decide
    · rw [beq_iff_eq.1 hc]
      rfl
  have hescape : Parallel.Steps (['"', '\\', 'n', 'r', 't', '0'].contains ·) (CrlfAt s .escaped)
      (CrlfAt s .quoted) := by
    refine CrlfAt.steps (fun c hc => ?_) fun c cs hc => by rw [remarkBehindCode]
    exact ⟨ne_of_test hc (by decide), ne_of_test hc (by decide)⟩
  exact .stringItem hplain hslash hescape

/-- The text with carriage returns has the tokens of the text without them. -/
def respacing (s : List Char) (hs : '\r' ∉ s) : Respacing where
  toComparison := comparison s
  Amid := Amid s
  Behind := CrlfAt s (.line false)
  Fresh := CrlfAt s (.line true)
  Quoted := CrlfAt s .quoted
  amid_of_behind _ _ h := ⟨false, h⟩
  amid_of_fresh _ _ h := .inl ⟨true, h⟩
  lost_of_short h := h.elim
  point _ _ _ := rfl
  plain := steps_plain
  place_plain i j c := by
    rintro ⟨fresh, h⟩ hc hi
    exact ⟨h.suffix, h.place (by rw [hi]; exact fun hn => by cases hn; cases hc)⟩
  place_behindSpace i j := by
    rintro (⟨fresh, h⟩ | h)
    · exact place_behindSpace h
    · exact place_behindSpace h
  space n := by
    rintro i j hi ⟨fresh, h⟩
    have hfresh : false = true → fresh = true := fun h => by cases h
    have hspace := parallel_skipBlank hs (n := n) hfresh reads_space_skip
    exact (hspace.rest fun _ _ h => ⟨fresh, h⟩) hi h
  lineEnd n item := parallel_lineEnd hs item
  divide n := parallel_divide
  openQuote n := parallel_openQuote
  stringItem n := parallel_stringItem
  closeQuote n := parallel_closeQuote
  nil_iff _ i j h := by
    rcases h.chars with hj | hj
    · rw [hj, crlf_eq_nil_iff]
    · rw [hj]
      cases i.chars <;> simp [settled]

end LineEnds

end Primer
