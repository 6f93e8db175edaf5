import Primer.Proofs.LineEnds.CarriageReturn

/-!
Texts that part at a seam. What stands before a place tells in which region of the text it lies: in
code, in a comment, or in a string. Where two texts start with the same characters, which end in a
region that is no open block comment, space and comments in what they have in common are passed over
alike: up to a place before the seam, or to the seam and on.
-/

namespace Primer

/-- The region of a text in which a place lies. Behind a slash a comment may start, and behind a star
within a block comment it may end. -/
inductive Region where
  | code
  | slash
  | remark
  | block
  | star
  | quoted
  | escaped
deriving DecidableEq

namespace Region

/-- The region behind one more character. -/
def next : Region → Char → Region
  | code, c => if c = '/' then slash else if c = '"' then quoted else code
  | slash, c =>
    if c = '/' then remark else if c = '*' then block else if c = '"' then quoted else code
  | remark, c => if isLineChar c then remark else code
  | block, c => if c = '*' then star else block
  | star, c => if c = '/' then code else if c = '*' then star else block
  | quoted, c => if c = '"' then code else if c = '\\' then escaped else quoted
  | escaped, _ => quoted

/-- The region behind the characters. -/
def after (r : Region) (cs : List Char) : Region := cs.foldl next r

@[simp] theorem after_nil (r : Region) : r.after [] = r := rfl

@[simp] theorem after_cons (r : Region) (c : Char) (cs : List Char) :
    r.after (c :: cs) = (r.next c).after cs := rfl

theorem next_code {c : Char} (hslash : c ≠ '/') (hquote : c ≠ '"') : next code c = code := by
  rw [next, if_neg hslash, if_neg hquote]

/-- A slash that starts no comment leaves no trace. -/
theorem after_slash {cs : List Char} (hne : cs ≠ []) (h : Uncommented cs) :
    after slash cs = after code cs := by
  cases cs with
  | nil => exact absurd rfl hne
  | cons c cs =>
    obtain ⟨hslash, hstar⟩ := h c rfl
    rw [after_cons, after_cons, next, next, if_neg hslash, if_neg hstar, if_neg hslash]

/-- The region is that of an open block comment. -/
def IsBlock (r : Region) : Prop := r = block ∨ r = star

/-- A block comment that is open at the start of the characters and closed at their end. -/
theorem exists_afterBlock? (u : List Char) :
    (¬ (block.after u).IsBlock → ∃ v, v.length ≤ u.length ∧ code.after v = block.after u ∧
      ∀ z, afterBlock? (u ++ z) = some (v ++ z)) ∧
    (¬ (star.after u).IsBlock → ∃ v, v.length ≤ u.length ∧ code.after v = star.after u ∧
      ∀ z, afterBlock? ('*' :: (u ++ z)) = some (v ++ z)) := by
  -- both at once, as a star is passed before it shows whether it ends the comment
  induction u with
  | nil => exact ⟨fun h => absurd (.inl rfl) h, fun h => absurd (.inr rfl) h⟩
  | cons c u ih =>
    obtain ⟨ihblock, ihstar⟩ := ih
    refine ⟨fun h => ?_, fun h => ?_⟩
    · by_cases hc : c = '*'
      · subst hc
        obtain ⟨v, hlen, hv, hafter⟩ := ihstar h
        exact ⟨v, Nat.le_succ_of_le hlen, hv, hafter⟩
      · rw [after_cons, next, if_neg hc] at h ⊢
        obtain ⟨v, hlen, hv, hafter⟩ := ihblock h
        refine ⟨v, Nat.le_succ_of_le hlen, hv, fun z => ?_⟩
        rw [List.cons_append, afterBlock?_cons fun hc' => absurd hc' hc, hafter]
    · by_cases hslash : c = '/'
      · subst hslash
        exact ⟨u, Nat.le_succ _, rfl, fun z => rfl⟩
      · have hopen (z : List Char) :
            afterBlock? ('*' :: (c :: u ++ z)) = afterBlock? (c :: u ++ z) :=
          afterBlock?_cons fun _ => by simpa using hslash
        rw [after_cons, next, if_neg hslash] at h ⊢
        by_cases hstar : c = '*'
        · rw [if_pos hstar] at h ⊢
          obtain ⟨v, hlen, hv, hafter⟩ := ihstar h
          refine ⟨v, Nat.le_succ_of_le hlen, hv, fun z => ?_⟩
          rw [hopen, hstar]
          exact hafter z
        · rw [if_neg hstar] at h ⊢
          obtain ⟨v, hlen, hv, hafter⟩ := ihblock h
          refine ⟨v, Nat.le_succ_of_le hlen, hv, fun z => ?_⟩
          rw [hopen, List.cons_append, afterBlock?_cons fun hc' => absurd hc' hstar, hafter]

/-- A line comment that is open at the start of the characters ends within them or goes on behind
them. -/
theorem dropWhile_cases (u : List Char) :
    (∃ c v, v.length < u.length ∧ isLineChar c = false ∧ code.after v = remark.after u ∧
      ∀ z, (u ++ z).dropWhile isLineChar = c :: (v ++ z)) ∨
    (remark.after u = remark ∧ ∀ z, (u ++ z).dropWhile isLineChar = z.dropWhile isLineChar) := by
  induction u with
  | nil => exact .inr ⟨rfl, fun z => rfl⟩
  | cons c u ih =>
    by_cases hc : isLineChar c = true
    · have hdrop (z : List Char) :
          (c :: u ++ z).dropWhile isLineChar = (u ++ z).dropWhile isLineChar :=
        List.dropWhile_cons_of_pos hc
      rw [after_cons, next, if_pos hc]
      rcases ih with ⟨d, v, hlen, hd, hv, hafter⟩ | ⟨hopen, hafter⟩
      · exact .inl ⟨d, v, Nat.lt_succ_of_lt hlen, hd, hv, fun z => (hdrop z).trans (hafter z)⟩
      · exact .inr ⟨hopen, fun z => (hdrop z).trans (hafter z)⟩
    · refine .inl ⟨c, u, Nat.lt_succ_self _, Bool.eq_false_iff.2 hc, ?_, fun z => ?_⟩
      · rw [after_cons, next, if_neg hc]
      · exact List.dropWhile_cons_of_neg hc

end Region

/-! ## Texts that part -/

/-- No token starts the text: it is empty, or space or a comment comes first. -/
inductive Tokenless : List Char → Prop where
  | nil : Tokenless []
  | space (h : isSpace c = true) : Tokenless (c :: cs)
  | block : Tokenless ('/' :: '*' :: cs)
  | remark : Tokenless ('/' :: '/' :: cs)

/-- Two texts that may follow the same characters, if those end in one of the regions: where that is
code or a comment, they differ at most in the space and the comments at their start. -/
structure Seam (In : Region → Prop) (x y : List Char) : Prop where
  ne_nil : x ≠ [] ∧ y ≠ []
  closed : ∀ r, In r → ¬ r.IsBlock
  tokenless : In .code → Tokenless x ∧ Tokenless y
  space : In .code → skipBlank false x = skipBlank false y ∨
    Tokenless (skipBlank false x) ∧ Tokenless (skipBlank false y)
  line : In .code → afterLine? x = afterLine? y
  blank : In .code → skipBlank true x = skipBlank true y
  slash : In .slash → In .code ∧ Uncommented x ∧ Uncommented y
  remark : In .remark → In .code ∧
    skipBlank true (x.dropWhile isLineChar) = skipBlank true (y.dropWhile isLineChar) ∧
    afterNewline? (x.dropWhile isLineChar) = afterNewline? (y.dropWhile isLineChar)
  /-- A string is not closed, as it cannot go on in either text. -/
  quoted : In .quoted ∨ In .escaped → x.head? = some '\n' ∧ y.head? = some '\n'

/-- What the characters before a seam start with, whatever text follows the seam. -/
inductive Lead (In : Region → Prop) (lines : Bool) (u : List Char) : Prop where
  /-- A character of space or a comment. -/
  | piece (hlen : v.length < u.length) (hv : In (Region.code.after v))
      (h : ∀ z, Piece lines (u ++ z) (v ++ z))
  /-- A line comment that goes on behind the seam. -/
  | remark (hin : In .remark) (hlines : lines = true)
      (h : ∀ z, Piece lines (u ++ z) (z.dropWhile isLineChar))
  | none (h : ∀ z, (In .slash → Uncommented z) → NoPiece lines (u ++ z))

/-- Where the space and the comments at the start of the characters before a seam end. -/
inductive Stop (In : Region → Prop) (lines : Bool) (u : List Char) : Prop where
  | ahead (hne : v ≠ []) (hv : In (Region.code.after v))
      (h : ∀ z, (In .slash → Uncommented z) → skipBlank lines (u ++ z) = v ++ z)
  | seam (hin : In .code) (h : ∀ z, skipBlank lines (u ++ z) = skipBlank lines z)
  /-- In a line comment that goes on behind the seam. -/
  | remark (hin : In .remark) (hlines : lines = true)
      (h : ∀ z, skipBlank lines (u ++ z) = skipBlank lines (z.dropWhile isLineChar))

section
variable {In : Region → Prop} {lines : Bool} {u : List Char}

theorem lead_remark (hu : In (Region.remark.after u)) : Lead In lines ('/' :: '/' :: u) := by
  cases lines with
  | false => exact .none fun z _ => .remark rfl
  | true =>
    have hpiece (z : List Char) :
        Piece true ('/' :: '/' :: u ++ z) ((u ++ z).dropWhile isLineChar) := .remark rfl
    rcases Region.dropWhile_cases u with ⟨c, v, hlen, hc, hv, hdrop⟩ | ⟨hopen, hdrop⟩
    · simp only [hdrop] at hpiece
      have hcode : Region.code.after (c :: v) = Region.remark.after u := by
        rw [Region.after_cons, Region.next_code (by rintro rfl; cases hc) (by rintro rfl; cases hc), hv]
      apply Lead.piece (v := c :: v) ?_ ?_ hpiece
      · simp only [List.length_cons]
        omega
      · rw [hcode]
        exact hu
    · simp only [hdrop] at hpiece
      rw [hopen] at hu
      exact .remark hu rfl hpiece

variable (hclosed : ∀ r, In r → ¬ r.IsBlock)
include hclosed

theorem lead_slash (hu : In (Region.slash.after u)) : Lead In lines ('/' :: u) := by
  cases u with
  | nil => exact .none fun z hz => .slash (hz hu)
  | cons c u =>
    by_cases hstar : c = '*'
    · subst hstar
      obtain ⟨v, hlen, hv, hafter⟩ := (Region.exists_afterBlock? u).1 (hclosed _ hu)
      apply Lead.piece (Nat.lt_succ_of_le (Nat.le_succ_of_le hlen)) ?_ fun z => .block (hafter z)
      rw [hv]
      exact hu
    · by_cases hremark : c = '/'
      · subst hremark
        exact lead_remark hu
      · refine .none fun z _ => .slash ?_
        intro d hd
        cases hd
        exact ⟨hremark, hstar⟩

theorem lead_of_ne_nil (hu : In (Region.code.after u)) (hne : u ≠ []) : Lead In lines u := by
  cases u with
  | nil => exact absurd rfl hne
  | cons c u =>
    by_cases hslash : c = '/'
    · subst hslash
      exact lead_slash hclosed hu
    · by_cases hspace : (isInlineSpace c || lines && c == '\n') = true
      · have hquote : c ≠ '"' := by
          rintro rfl
          cases lines <;> cases hspace
        rw [Region.after_cons, Region.next_code hslash hquote] at hu
        refine .piece (Nat.lt_succ_self _) hu fun z => piece_of_afterPiece? ?_
        rw [List.cons_append, afterPiece?_cons hslash, if_pos hspace]
      · refine .none fun z _ => noPiece_of_afterPiece? ?_
        rw [List.cons_append, afterPiece?_cons hslash, if_neg hspace]

/-- Space and comments before a seam end at a place that does not depend on what follows the seam,
unless they reach it. -/
theorem stop_skipBlank (hu : In (Region.code.after u)) : Stop In lines u := by
  -- on the length, as a comment is passed in one step
  induction hn : u.length using Nat.strongRecOn generalizing u with
  | ind n ih =>
    by_cases hne : u = []
    · subst hne
      exact .seam hu fun z => rfl
    · cases lead_of_ne_nil hclosed hu hne with
      | @piece v hlen hv hpiece =>
        have hskip (z : List Char) : skipBlank lines (u ++ z) = skipBlank lines (v ++ z) :=
          (hpiece z).skipBlank_eq
        cases ih v.length (hn ▸ hlen) hv rfl with
        | ahead hne hw h => exact .ahead hne hw fun z hz => (hskip z).trans (h z hz)
        | seam hin h => exact .seam hin fun z => (hskip z).trans (h z)
        | remark hin hlines h => exact .remark hin hlines fun z => (hskip z).trans (h z)
      | remark hin hlines hpiece => exact .remark hin hlines fun z => (hpiece z).skipBlank_eq
      | none hnone => exact .ahead hne hu fun z hz => (hnone z hz).skipBlank_eq

end

end Primer
