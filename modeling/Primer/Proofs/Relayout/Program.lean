import Primer.Proofs.LineEnds.Program
import Primer.Proofs.Relayout.Seam

/-!
Changes of layout: other space within a line, a comment at the end of a line, blank lines and comments
on lines of their own. Each makes a seam in the text, so the program that is read stays the same in
everything but its places.
-/

namespace Primer

/-- A run of space within a line: blanks, tabs, carriage returns and closed block comments. -/
inductive InlineSpace : List Char → Prop where
  | nil : InlineSpace []
  | char (hc : isInlineSpace c = true) (h : InlineSpace cs) : InlineSpace (c :: cs)
  | comment (hbody : ¬ ['*', '/'] <:+: body) (h : InlineSpace cs) :
    InlineSpace ('/' :: '*' :: (body ++ '*' :: '/' :: cs))

/-- A blank line, or a line comment on a line of its own, with the line feed that ends it. -/
inductive BlankLine : List Char → Prop where
  | newline : BlankLine ['\n']
  | space (hc : isInlineSpace c = true) (h : BlankLine cs) : BlankLine (c :: cs)
  | remark (htext : ∀ c ∈ text, isLineChar c = true) (hend : ∀ c ∈ cs.head?, isLineChar c = false)
      (h : BlankLine cs) : BlankLine ('/' :: '/' :: (text ++ cs))

/-- The second text is the first with another layout at one place. -/
inductive Relayout : List Char → List Char → Prop where
  /-- Other space, within a line and outside of comments and strings. It is not where a line comment
  ends, since that place still lies in the region of the comment; and behind a slash it does not start
  with another one, since the two would start a comment. -/
  | space (hpre : Region.code.after pre = .code ∨
        Region.code.after pre = .slash ∧ run.head? ≠ some '/')
      (hne : run ≠ []) (hrun : InlineSpace run) (hc : isInlineSpace c = true)
      (hrun' : InlineSpace run') :
    Relayout (pre ++ (run ++ post)) (pre ++ (c :: run' ++ post))
  /-- A comment at the end of a line that does not end within a block comment. -/
  | remark (hpre : ¬ (Region.code.after pre).IsBlock) (htext : ∀ c ∈ text, isLineChar c = true) :
    Relayout (pre ++ '\n' :: post) (pre ++ ' ' :: '/' :: '/' :: (text ++ '\n' :: post))
  /-- Lines without code behind the end of such a line. -/
  | lines {lines : List (List Char)} (hpre : ¬ (Region.code.after pre).IsBlock)
      (hlines : ∀ line ∈ lines, BlankLine line) :
    Relayout (pre ++ '\n' :: post) (pre ++ '\n' :: (lines.flatten ++ post))

/-! ## What is passed over -/

theorem afterBlock?_append {body : List Char} (h : ¬ ['*', '/'] <:+: body) (cs : List Char) :
    afterBlock? (body ++ '*' :: '/' :: cs) = some cs := by
  induction body with
  | nil => rfl
  | cons c body ih =>
    have hbody : ¬ ['*', '/'] <:+: body := fun hpart => h (hpart.trans (List.suffix_cons c body).isInfix)
    rw [List.cons_append, afterBlock?_cons, ih hbody]
    rintro rfl hhead
    cases body with
    | nil => cases hhead
    | cons d body =>
      cases hhead
      exact h (List.prefix_append ['*', '/'] body).isInfix

theorem InlineSpace.skipBlank_append {run : List Char} (h : InlineSpace run) (lines : Bool)
    (post : List Char) : skipBlank lines (run ++ post) = skipBlank lines post := by
  induction h with
  | nil => rfl
  | char hc _ ih =>
    rw [List.cons_append, (Piece.space hc).skipBlank_eq, ih]
  | @comment body cs hbody _ ih =>
    have hpiece : Piece lines ('/' :: '*' :: (body ++ '*' :: '/' :: (cs ++ post))) (cs ++ post) :=
      .block (afterBlock?_append hbody _)
    rw [← ih, ← hpiece.skipBlank_eq]
    simp

theorem InlineSpace.tokenless {run : List Char} (h : InlineSpace run) (hne : run ≠ [])
    (post : List Char) : Tokenless (run ++ post) := by
  cases h with
  | nil => exact absurd rfl hne
  | char hc _ =>
    apply Tokenless.space
    simp [isInlineSpace] at hc
    simp [isSpace, hc]
  | comment _ _ => exact .block

theorem dropWhile_text {text cs : List Char} (htext : ∀ c ∈ text, isLineChar c = true)
    (hend : ∀ c ∈ cs.head?, isLineChar c = false) : (text ++ cs).dropWhile isLineChar = cs := by
  rw [List.dropWhile_append_of_pos htext]
  cases cs with
  | nil => rfl
  | cons c cs => exact List.dropWhile_cons_of_neg (by simp [hend c rfl])

theorem BlankLine.skipBlank_append {line : List Char} (h : BlankLine line) (post : List Char) :
    skipBlank true (line ++ post) = skipBlank true post := by
  induction h with
  | newline => exact (Piece.newline rfl).skipBlank_eq
  | space hc _ ih => rw [List.cons_append, (Piece.space hc).skipBlank_eq, ih]
  | @remark text cs htext hend h ih =>
    have hrest : (text ++ (cs ++ post)).dropWhile isLineChar = cs ++ post := by
      apply dropWhile_text htext
      cases h <;> exact hend
    rw [List.cons_append, List.cons_append, List.append_assoc, (Piece.remark rfl).skipBlank_eq, hrest,
      ih]

theorem skipBlank_lines {lines : List (List Char)} (h : ∀ line ∈ lines, BlankLine line)
    (post : List Char) : skipBlank true (lines.flatten ++ post) = skipBlank true post := by
  induction lines with
  | nil => rfl
  | cons line lines ih =>
    obtain ⟨hline, hlines⟩ := List.forall_mem_cons.1 h
    rw [List.flatten_cons, List.append_assoc, hline.skipBlank_append, ih hlines]

/-! ## Seams -/

/-- The region is that of code or of a line comment. -/
def Region.IsLine (r : Region) : Prop := r = code ∨ r = slash ∨ r = remark

/-- The region is that of a string. -/
def Region.IsString (r : Region) : Prop := r = quoted ∨ r = escaped

theorem Region.isLine_or_isString {r : Region} (h : ¬ r.IsBlock) : r.IsLine ∨ r.IsString := by
  cases r with
  | code => exact .inl (.inl rfl)
  | slash => exact .inl (.inr (.inl rfl))
  | remark => exact .inl (.inr (.inr rfl))
  | block => exact absurd (.inl rfl) h
  | star => exact absurd (.inr rfl) h
  | quoted => exact .inr (.inl rfl)
  | escaped => exact .inr (.inr rfl)

theorem Uncommented.of_isInlineSpace {c : Char} (hc : isInlineSpace c = true) (cs : List Char) :
    Uncommented (c :: cs) := by
  intro d hd
  cases hd
  exact ⟨ne_of_test hc (by decide), ne_of_test hc (by decide)⟩

theorem InlineSpace.uncommented {run : List Char} (h : InlineSpace run) (hne : run ≠ [])
    (hhead : run.head? ≠ some '/') (post : List Char) : Uncommented (run ++ post) := by
  cases h with
  | nil => exact absurd rfl hne
  | char hc _ => exact .of_isInlineSpace hc _
  | comment _ _ => exact absurd rfl hhead

/-- Between two runs of space. -/
theorem seam_space {run run' : List Char} {c : Char} (hne : run ≠ []) (hrun : InlineSpace run)
    (hc : isInlineSpace c = true) (hrun' : InlineSpace run') (post : List Char) :
    Seam (fun r => r = .code ∨ r = .slash ∧ run.head? ≠ some '/') (run ++ post)
      (c :: run' ++ post) := by
  have hother : InlineSpace (c :: run') := .char hc hrun'
  have hskip (lines : Bool) : skipBlank lines (run ++ post) = skipBlank lines (c :: run' ++ post) := by
    rw [hrun.skipBlank_append, hother.skipBlank_append]
  constructor
  case ne_nil => simp [hne]
  case closed =>
    rintro r (rfl | ⟨rfl, -⟩) (hr | hr)
    all_goals cases hr
  case tokenless =>
    intro _
    exact ⟨hrun.tokenless hne post, hother.tokenless (List.cons_ne_nil c run') post⟩
  case space =>
    intro _
    exact .inl (hskip false)
  case line =>
    intro _
    rw [afterLine?, afterLine?, hskip]
  case blank =>
    intro _
    exact hskip true
  case slash =>
    rintro (hr | ⟨-, hhead⟩)
    · cases hr
    · exact ⟨.inl rfl, hrun.uncommented hne hhead post, .of_isInlineSpace hc _⟩
  case remark =>
    rintro (hr | ⟨hr, -⟩)
    all_goals cases hr
  case quoted =>
    rintro ((hr | ⟨hr, -⟩) | (hr | ⟨hr, -⟩))
    all_goals cases hr

/-- Between a line end and a text without code before its first line end, which need not be followed
by the same lines without code. -/
theorem seam_newline (rest : List Char) {post y : List Char} (hy : Tokenless y) (hcomment : Uncommented y)
    (hspace : Tokenless (skipBlank false y)) (hline : afterLine? y = some (skipBlank true rest))
    (hblank : skipBlank true y = skipBlank true rest)
    (hremark : y.dropWhile isLineChar = '\n' :: rest)
    (hrest : skipBlank true rest = skipBlank true post) :
    Seam Region.IsLine ('\n' :: post) y := by
  have hsettled : skipBlank false ('\n' :: post) = '\n' :: post :=
    (NoPiece.other (by decide) (by decide) (by simp)).skipBlank_eq
  have hnewline {cs : List Char} : skipBlank true ('\n' :: cs) = skipBlank true cs :=
    (Piece.newline rfl).skipBlank_eq
  constructor
  case ne_nil =>
    refine ⟨List.cons_ne_nil _ _, ?_⟩
    rintro rfl
    cases hremark
  case closed =>
    rintro r (rfl | rfl | rfl) (hr | hr)
    all_goals cases hr
  case tokenless =>
    intro _
    exact ⟨.space rfl, hy⟩
  case space =>
    intro _
    rw [hsettled]
    exact .inr ⟨.space rfl, hspace⟩
  case line =>
    intro _
    rw [hline, hrest, afterLine?, hsettled, afterRemark_of_not_remark (by simp)]
    rfl
  case blank =>
    intro _
    rw [hblank, hrest, hnewline]
  case slash =>
    intro _
    exact ⟨.inl rfl, by simp [Uncommented], hcomment⟩
  case remark =>
    intro _
    have hpost : ('\n' :: post).dropWhile isLineChar = '\n' :: post := rfl
    rw [hpost, hremark, hnewline, hnewline, afterNewline?, afterNewline?, hrest]
    exact ⟨.inl rfl, rfl, rfl⟩
  case quoted =>
    rintro ((hr | hr | hr) | (hr | hr | hr))
    all_goals cases hr

/-- Between a line end and the same with a comment before it. -/
theorem seam_remark {text : List Char} (htext : ∀ c ∈ text, isLineChar c = true) (post : List Char) :
    Seam Region.IsLine ('\n' :: post) (' ' :: '/' :: '/' :: (text ++ '\n' :: post)) := by
  have hdrop : (text ++ '\n' :: post).dropWhile isLineChar = '\n' :: post :=
    dropWhile_text htext (by simp [isLineChar])
  have hspace : skipBlank false (' ' :: '/' :: '/' :: (text ++ '\n' :: post)) =
      '/' :: '/' :: (text ++ '\n' :: post) := by
    rw [(Piece.space rfl).skipBlank_eq, (NoPiece.remark rfl).skipBlank_eq]
  apply seam_newline post
  case hy => exact .space rfl
  case hcomment => exact .of_isInlineSpace rfl _
  case hspace =>
    rw [hspace]
    exact .remark
  case hline =>
    rw [afterLine?, hspace, afterRemark, hdrop]
    rfl
  case hblank =>
    rw [(Piece.space rfl).skipBlank_eq, (Piece.remark rfl).skipBlank_eq, hdrop,
      (Piece.newline rfl).skipBlank_eq]
  case hremark =>
    exact hdrop
  case hrest => rfl

/-- Between a line end and the same with lines without code behind it. -/
theorem seam_lines {lines : List (List Char)} (hlines : ∀ line ∈ lines, BlankLine line)
    (post : List Char) : Seam Region.IsLine ('\n' :: post) ('\n' :: (lines.flatten ++ post)) := by
  have hspace : skipBlank false ('\n' :: (lines.flatten ++ post)) = '\n' :: (lines.flatten ++ post) :=
    (NoPiece.other (by decide) (by decide) (by simp)).skipBlank_eq
  apply seam_newline (lines.flatten ++ post)
  case hy => exact .space rfl
  case hcomment => simp [Uncommented]
  case hspace =>
    rw [hspace]
    exact .space rfl
  case hline =>
    rw [afterLine?, hspace, afterRemark_of_not_remark (by simp)]
    rfl
  case hblank => exact (Piece.newline rfl).skipBlank_eq
  case hremark => rfl
  case hrest => exact skipBlank_lines hlines post

/-- A string cannot go on behind a line end. -/
theorem seam_string (post : List Char) : Seam Region.IsString ('\n' :: post) ('\n' :: post) := by
  constructor
  case ne_nil => simp
  case closed =>
    rintro r (rfl | rfl) (hr | hr)
    all_goals cases hr
  case quoted => exact fun _ => ⟨rfl, rfl⟩
  all_goals
    rintro (hr | hr)
    all_goals cases hr

/-! ## Programs -/

/-- A text with a line end in a string is no program. -/
theorem isLine_of_parse {s : String} {p : Program} {pre post : List Char}
    (hs : s.toList = pre ++ '\n' :: post) (hpre : ¬ (Region.code.after pre).IsBlock)
    (h : Program.parse s = .ok p) : (Region.code.after pre).IsLine := by
  rcases Region.isLine_or_isString hpre with hline | hstring
  · exact hline
  · obtain ⟨-, hcode⟩ := (seam_string post).exists_parse hs hs hstring h
    rcases hcode with hcode | hcode
    all_goals cases hcode

/-- **Layout does not change meaning.** A text that is a program is one in any other layout, and the
same one in everything but its places. -/
theorem Program.parse_relayout {s t : String} {p : Program} (hst : Relayout s.toList t.toList)
    (h : Program.parse s = .ok p) : ∃ q, Program.parse t = .ok q ∧ q.erase = p.erase := by
  generalize hs : s.toList = cs at hst
  generalize ht : t.toList = ds at hst
  cases hst with
  | space hpre hne hrun hc hrun' =>
    exact ((seam_space hne hrun hc hrun' _).exists_parse hs ht hpre h).1
  | remark hpre htext =>
    exact ((seam_remark htext _).exists_parse hs ht (isLine_of_parse hs hpre h) h).1
  | lines hpre hlines =>
    exact ((seam_lines hlines _).exists_parse hs ht (isLine_of_parse hs hpre h) h).1

/-- A text with space behind a sign that could start a comment. -/
def dividedText : String := "program t // ratio\nconstant c : real = 1/ 2\n"

theorem Program.parse_relayout_divided : ∃ p q, Program.parse dividedText = .ok p ∧
    Program.parse "program t // ratio\nconstant c : real = 1/\t/* \" */ 2\n" = .ok q ∧
    q.erase = p.erase := by
  obtain ⟨p, hp⟩ := Program.exists_ok_of_isOk (x := Program.parse dividedText) (by decide +kernel)
  have hcomment : InlineSpace ('/' :: '*' :: ([' ', '"', ' '] ++ '*' :: '/' :: [' '])) :=
    .comment (by decide) (.char rfl .nil)
  have hspace : Relayout ("program t // ratio\nconstant c : real = 1/".toList ++ ([' '] ++ ['2', '\n']))
      ("program t // ratio\nconstant c : real = 1/".toList ++
        ('\t' :: '/' :: '*' :: ([' ', '"', ' '] ++ '*' :: '/' :: [' ']) ++ ['2', '\n'])) :=
    .space (.inr ⟨by decide +kernel, by decide⟩) (by decide) (.char rfl .nil) rfl hcomment
  have hst : Relayout dividedText.toList
      "program t // ratio\nconstant c : real = 1/\t/* \" */ 2\n".toList := by
    convert hspace using 1 <;> decide +kernel
  obtain ⟨q, hq, herase⟩ := parse_relayout hst hp
  exact ⟨p, q, hp, hq, herase⟩

end Primer
