import Primer.Proofs.Relayout.Seam

/-!
A text with more behind it. Where the text ends with a line feed, outside of comments and strings, what
is read within it does not depend on what follows: tokens and the space of a line end before its last
character, and a line end goes on into what follows only at the end of the text. So a text and the same
text with more behind it correspond as a `Respacing` does, in which the second text is the shorter one.
-/

namespace Primer

open Primer.Parser Primer.Grammar

/-- The last of the characters is a line feed. -/
def EndsLine (cs : List Char) : Prop := cs.getLast? = some '\n'

instance (cs : List Char) : Decidable (EndsLine cs) := inferInstanceAs (Decidable (_ = _))

namespace EndsLine

variable {cs rest : List Char} {c : Char}

theorem ne_nil (h : EndsLine cs) : cs ≠ [] := by
  rintro rfl
  cases h

theorem of_suffix (h : EndsLine cs) (hs : rest <:+ cs) (hne : rest ≠ []) : EndsLine rest := by
  obtain ⟨pre, rfl⟩ := hs
  rw [EndsLine, List.getLast?_append_of_ne_nil _ hne] at h
  exact h

theorem tail (h : EndsLine (c :: cs)) (hc : c ≠ '\n') : EndsLine cs := by
  refine h.of_suffix (List.suffix_cons c cs) ?_
  rintro rfl
  exact hc (Option.some.inj h)

/-- A line comment has ended before the end of the line. -/
theorem after_ne_remark (h : EndsLine cs) (r : Region) : r.after cs ≠ .remark := by
  obtain ⟨init, rfl⟩ := List.getLast?_eq_some_iff.1 h
  rw [Region.after, List.foldl_append]
  change ((r.after init).next '\n') ≠ .remark
  cases r.after init <;> decide

end EndsLine

/-! ## Regions and space -/

theorem Region.after_star {cs : List Char} (hne : cs ≠ []) (h : cs.head? ≠ some '/') :
    star.after cs = block.after cs := by
  cases cs with
  | nil => exact absurd rfl hne
  | cons c cs =>
    have hc : c ≠ '/' := by simpa using h
    rw [after_cons, after_cons, next, next, if_neg hc]

theorem Region.after_of_afterBlock? {cs rest : List Char} (h : afterBlock? cs = some rest) :
    block.after cs = code.after rest := by
  fun_induction afterBlock? cs with
  | case1 => cases h
  | case2 cs =>
    cases h
    rfl
  | case3 c cs hclose ih =>
    by_cases hc : c = '*'
    · subst hc
      rw [after_cons, ← ih h]
      apply after_star
      · rintro rfl
        cases h
      · intro hhead
        obtain ⟨t, rfl⟩ := List.head?_eq_some_iff.1 hhead
        exact hclose t rfl rfl
    · rw [after_cons, next, if_neg hc, ih h]

/-- The text behind a piece of space ends in the region in which the whole ends, unless that is a line
comment. -/
theorem Piece.after_eq {lines : Bool} {cs rest : List Char} (h : Piece lines cs rest) :
    Region.code.after cs = Region.code.after rest ∨ Region.code.after cs = .remark := by
  cases h with
  | block h => exact .inl (Region.after_of_afterBlock? h)
  | @remark cs _ =>
    rcases Region.dropWhile_cases cs with ⟨c, v, -, hc, hv, hdrop⟩ | ⟨hopen, -⟩
    · have hrest := hdrop []
      rw [List.append_nil, List.append_nil] at hrest
      have hcode : Region.code.after (c :: v) = Region.remark.after cs := by
        rw [Region.after_cons, Region.next_code (by rintro rfl; cases hc) (by rintro rfl; cases hc), hv]
      left
      rw [hrest, hcode]
      rfl
    · exact .inr hopen
  | space hc =>
    left
    rw [Region.after_cons, Region.next_code (ne_of_test hc (by decide)) (ne_of_test hc (by decide))]
  | newline _ => exact .inl rfl

theorem after_skipBlank (lines : Bool) (cs : List Char) :
    Region.code.after cs = Region.code.after (skipBlank lines cs) ∨ Region.code.after cs = .remark := by
  induction cs using skipBlank_induction lines with
  | piece cs rest h ih =>
    rw [h.skipBlank_eq]
    rcases h.after_eq with heq | hremark
    · rw [heq]
      exact ih
    · exact .inr hremark
  | none cs h => exact .inl (by rw [h.skipBlank_eq])

theorem EndsLine.of_afterBlock? {cs rest : List Char} (h : EndsLine cs) (hrest : afterBlock? cs = some rest) :
    EndsLine rest := by
  fun_induction afterBlock? cs with
  | case1 => cases hrest
  | case2 cs =>
    cases hrest
    exact (h.tail (by decide)).tail (by decide)
  | case3 c cs _ ih =>
    refine ih (h.of_suffix (List.suffix_cons c cs) ?_) hrest
    rintro rfl
    cases hrest

/-- The space of a line does not reach over the end of the line. -/
theorem EndsLine.skipBlank {cs : List Char} (h : EndsLine cs) : EndsLine (skipBlank false cs) := by
  induction cs using skipBlank_induction false with
  | piece cs rest hpiece ih =>
    rw [hpiece.skipBlank_eq]
    apply ih
    cases hpiece with
    | block hblock => exact ((h.tail (by decide)).tail (by decide)).of_afterBlock? hblock
    | remark hlines => cases hlines
    | space hc => exact h.tail (ne_of_test hc (by decide))
    | newline hlines => cases hlines
  | none cs hnone => rwa [hnone.skipBlank_eq]

/-! ## A text and more -/

/-- Places in a text with `d` behind it and in the text alone: `d` is still ahead, and behind the place
lies the region `r`, from which the text leads to the region `e` at its end. -/
structure Continued (d : List Char) (e r : Region) (cs ds : List Char) : Prop where
  endsLine : EndsLine ds
  region : r.after ds = e
  text : cs = ds ++ d

/-- Places behind a line end and all that is blank: `d` is still ahead, or it has been reached and what
is blank at its start has been passed. -/
def Renewed (d : List Char) (e : Region) (cs ds : List Char) : Prop :=
  Continued d e .code cs ds ∨ ds = [] ∧ e = .code ∧ cs = skipBlank true d

section
variable {d : List Char} {e : Region} (hd : e = .code ∨ d = [])
include hd

/-- What is blank ends within the text, or all of it is blank and what follows is read on. -/
theorem skipBlank_append_cases (lines : Bool) {ds : List Char} (hds : Region.code.after ds = e)
    (hremark : e ≠ .remark) :
    Region.code.after (skipBlank lines ds) = e ∧
      (skipBlank lines ds ≠ [] ∧ skipBlank lines (ds ++ d) = skipBlank lines ds ++ d ∨
        skipBlank lines ds = [] ∧ skipBlank lines (ds ++ d) = skipBlank lines d) := by
  have hnil : skipBlank lines [] = [] := NoPiece.nil.skipBlank_eq
  constructor
  · rcases after_skipBlank lines ds with heq | hremark'
    · rw [← heq, hds]
    · exact absurd (hds.symm.trans hremark') hremark
  · rcases hd with rfl | rfl
    · have hclosed : ∀ r : Region, r = .code → ¬ r.IsBlock := by
        rintro _ rfl (hr | hr)
        all_goals cases hr
      have hstop : Stop (· = .code) lines ds := stop_skipBlank hclosed hds
      cases hstop with
      | @ahead v hne _ hskip =>
        have hv : skipBlank lines ds = v := by simpa using hskip [] fun h => by cases h
        rw [hv, hskip d fun h => by cases h]
        exact .inl ⟨hne, rfl⟩
      | seam _ hskip =>
        have hv := hskip []
        rw [List.append_nil, hnil] at hv
        exact .inr ⟨hv, hskip d⟩
      | remark hin => cases hin
    · rw [List.append_nil, List.append_nil, hnil]
      by_cases hv : skipBlank lines ds = []
      · exact .inr ⟨hv, hv⟩
      · exact .inl ⟨hv, rfl⟩

theorem Continued.space {cs ds : List Char} (h : Continued d e .code cs ds) :
    Continued d e .code (skipBlank false cs) (skipBlank false ds) := by
  have hline := h.endsLine.skipBlank
  have hremark : e ≠ .remark := h.region ▸ h.endsLine.after_ne_remark .code
  obtain ⟨hregion, hskip⟩ := skipBlank_append_cases hd false h.region hremark
  rw [h.text]
  rcases hskip with ⟨-, hskip⟩ | ⟨hnil, -⟩
  · exact ⟨hline, hregion, hskip⟩
  · exact absurd hnil hline.ne_nil

/-- What is blank at the start of a line. -/
theorem renewed_blank {ds : List Char} (hline : ds ≠ [] → EndsLine ds)
    (hregion : Region.code.after ds = e) :
    Renewed d e (skipBlank true (ds ++ d)) (skipBlank true ds) := by
  have hremark : e ≠ .remark := by
    by_cases hne : ds = []
    · subst hne
      rw [← hregion]
      decide
    · exact hregion ▸ (hline hne).after_ne_remark .code
  obtain ⟨hafter, hskip⟩ := skipBlank_append_cases hd true hregion hremark
  rcases hskip with ⟨hne, hskip⟩ | ⟨hnil, hskip⟩
  · have hsuffix := skipBlank_suffix true ds
    have hds : ds ≠ [] := by
      rintro rfl
      exact hne (List.suffix_nil.1 hsuffix)
    exact .inl ⟨(hline hds).of_suffix hsuffix hne, hafter, hskip⟩
  · rw [hnil] at hafter ⊢
    exact .inr ⟨rfl, hafter.symm, hskip⟩

omit hd in
/-- What follows a line comment, if there is one, starts with the same character in both texts. -/
theorem Continued.remark {cs ds : List Char} (h : Continued d e .code cs ds) :
    ∃ c v, afterRemark ds = c :: v ∧ afterRemark cs = c :: (v ++ d) ∧ (v ≠ [] → EndsLine v) ∧
      (c = '\n' → Region.code.after v = e) := by
  have hne := h.endsLine.ne_nil
  have hline {c : Char} {v : List Char} (hv : afterRemark ds = c :: v) (hne : v ≠ []) : EndsLine v := by
    refine h.endsLine.of_suffix ?_ hne
    exact (List.suffix_cons c v).trans (hv ▸ afterRemark_suffix ds)
  by_cases hremark : ['/', '/'] <+: ds
  · obtain ⟨w, rfl⟩ := hremark
    have hregion : Region.remark.after w = e := h.region
    rcases Region.dropWhile_cases w with ⟨c, v, -, -, hv, hdrop⟩ | ⟨hopen, -⟩
    · have hds : afterRemark (['/', '/'] ++ w) = c :: v := by simpa [afterRemark] using hdrop []
      refine ⟨c, v, hds, ?_, hline hds, fun _ => by rw [hv, hregion]⟩
      rw [h.text]
      exact hdrop d
    · exact absurd (h.region.trans (hregion.symm.trans hopen)) (h.region ▸ h.endsLine.after_ne_remark .code)
  · cases ds with
    | nil => exact absurd rfl hne
    | cons c v =>
      have hds : afterRemark (c :: v) = c :: v := afterRemark_of_not_remark hremark
      have hcs : afterRemark (c :: v ++ d) = c :: v ++ d := by
        refine afterRemark_append hne hremark fun hv => ?_
        rw [hv] at h
        cases h.endsLine
      refine ⟨c, v, hds, h.text ▸ hcs, hline hds, ?_⟩
      rintro rfl
      exact h.region

/-- A line end goes on into what follows the text at the end of the text only. -/
theorem Continued.line {cs ds rest : List Char} (h : Continued d e .code cs ds)
    (hrest : afterLine? ds = some rest) : ∃ rest', afterLine? cs = some rest' ∧ Renewed d e rest' rest := by
  obtain ⟨c, v, hds, hcs, hline, hregion⟩ := (h.space hd).remark
  rw [afterLine?, hds] at hrest
  rw [afterLine?, hcs]
  by_cases hc : c = '\n'
  · subst hc
    cases hrest
    exact ⟨_, rfl, renewed_blank hd hline (hregion rfl)⟩
  · simp [afterNewline?, hc] at hrest

end

/-! ## Tokens -/

variable {d : List Char} {e r r' : Region}

/-- A character other than a line feed stands in both texts or in neither. -/
theorem Continued.steps {t : Char → Bool} (ht : t '\n' = false) (hnext : ∀ c, t c = true → r.next c = r') :
    Parallel.Steps t (fun i j => Continued d e r i.chars j.chars)
      (fun i j => Continued d e r' i.chars j.chars) where
  head {i j c} hij _ := by
    rw [hij.text, List.head?_append_of_ne_nil _ hij.endsLine.ne_nil]
  skip {i j c} hij hc hhead := by
    obtain ⟨hline, hregion, htext⟩ := hij
    rw [htext, List.head?_append_of_ne_nil _ hline.ne_nil] at hhead
    obtain ⟨v, hv⟩ := List.head?_eq_some_iff.1 hhead
    rw [hv] at hline hregion htext
    refine ⟨?_, ?_, ?_⟩
    · simpa [hv] using hline.tail (ne_of_test hc ht)
    · rw [Region.after_cons, hnext c hc] at hregion
      simpa [hv] using hregion
    · simp [hv, htext]

/-- A division sign stands in both texts, or in neither. -/
theorem Continued.divide {cs ds : List Char} (h : Continued d e .code cs ds) :
    (∃ t t', cs = '/' :: t ∧ ds = '/' :: t' ∧ Uncommented t ∧ Uncommented t' ∧
      Continued d e .code t t') ∨
    (Misses (operatorSign .divide) cs ∧ Misses (operatorSign .divide) ds) := by
  obtain ⟨hline, hregion, rfl⟩ := h
  cases ds with
  | nil => exact absurd rfl hline.ne_nil
  | cons c v =>
    by_cases hc : c = '/'
    · subst hc
      have hrest : EndsLine v := hline.tail (by decide)
      obtain ⟨b, v, rfl⟩ := List.exists_cons_of_ne_nil hrest.ne_nil
      by_cases hb : b = '/' ∨ b = '*'
      · exact .inr ⟨LineEnds.misses_divide rfl hb, LineEnds.misses_divide rfl hb⟩
      · have hfree (z : List Char) : Uncommented (b :: z) := by
          intro a ha
          cases ha
          exact not_or.1 hb
        refine .inl ⟨_, _, rfl, rfl, hfree _, hfree _, hrest, ?_, rfl⟩
        rw [← Region.after_slash (List.cons_ne_nil b v) (hfree v)]
        exact hregion
    · have hmiss (z : List Char) : Misses (operatorSign .divide) (c :: z) :=
        misses_divide_of_head (by simpa using hc)
      exact .inr ⟨hmiss _, hmiss _⟩

namespace Appending

/-- The text alone may end where the other goes on, and its reading then breaks off. -/
def comparison : Comparison where
  Place _ _ := True
  Lost := True
  Short := True

variable {n : Nat}

theorem parallel_lineEnd (hd : e = .code ∨ d = []) (item : String) :
    Parallel comparison n 0 (fun i j => Continued d e .code i.chars j.chars) (expect item lineEnd)
      (expect item lineEnd) (fun _ _ => True) fun i j => Renewed d e i.chars j.chars := by
  intro i j _ hij
  cases hj : afterLine? j.chars with
  | some rest =>
    obtain ⟨rest', hi, hrest⟩ := hij.line hd hj
    exact match_lineEnd hi hj hrest
  | none =>
    rw [expect_of_misses item (misses_lineEnd_of_afterLine? hj)]
    exact .lost trivial

theorem parallel_stringItem :
    Parallel comparison n 1 (fun i j => Continued d e .quoted i.chars j.chars) stringItem stringItem Eq
      fun i j => Continued d e .quoted i.chars j.chars := by
  apply Parallel.stringItem (B := fun i j => Continued d e .escaped i.chars j.chars)
  · apply Continued.steps (by decide)
    intro c hc
    simp at hc
    simp [Region.next, hc]
  · apply Continued.steps (by decide)
    intro c hc
    rw [beq_iff_eq.1 hc]
    rfl
  · exact Continued.steps (by decide) fun _ _ => rfl

theorem parallel_quote (hr : r.next '"' = r') :
    Parallel comparison n 1 (fun i j => Continued d e r i.chars j.chars) (char '"') (char '"') Eq
      fun i j => Continued d e r' i.chars j.chars := by
  apply Parallel.char
  apply Continued.steps (by decide)
  intro c hc
  rw [beq_iff_eq.1 hc, hr]

/-- A text with `d` behind it has the tokens of the text alone, up to the end of the latter. The places
in the text alone are counted from the end of the other one. -/
def respacing (hd : e = .code ∨ d = []) : Respacing where
  toComparison := comparison
  Amid i j := Continued d e .code i.chars j.chars
  Behind i j := Continued d e .code i.chars j.chars
  Fresh i j := Renewed d e i.chars j.chars
  Quoted i j := Continued d e .quoted i.chars j.chars
  left i := i
  right i := ⟨i.toEnd + byteCount d⟩
  amid_of_behind _ _ h := h
  amid_of_fresh _ _ h := h.imp id fun h => ⟨trivial, h.1⟩
  lost_of_short _ := trivial
  point i j h := by
    rw [Cursor.position, Cursor.position, i.bytes_eq, j.bytes_eq, h.text, byteCount_append]
  plain := Continued.steps (by decide) fun c hc =>
    Region.next_code (ne_of_test hc (by decide)) (ne_of_test hc (by decide))
  place_plain _ _ _ _ _ _ := trivial
  place_behindSpace _ _ _ := trivial
  space _ := parallel_skipBlank reads_space_skip fun _ _ h => h.space hd
  lineEnd _ item := parallel_lineEnd hd item
  divide _ := parallel_divideSign fun _ _ h => h.divide
  openQuote _ := parallel_quote rfl
  stringItem _ := parallel_stringItem
  closeQuote _ := parallel_quote rfl
  nil_iff h := absurd trivial h

end Appending

end Primer
