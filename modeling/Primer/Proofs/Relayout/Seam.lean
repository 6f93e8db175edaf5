import Primer.Proofs.Relayout.Region

/-!
Two texts that part at a seam have the same tokens. A reading of both comes to places before the seam,
where what remains of the two still starts alike, or to the same text behind it; only the space of a
line may end at the seam with different comments ahead, where neither text goes on with a token. So the
two correspond as a `Respacing` does.
-/

namespace Primer

open Primer.Parser Primer.Grammar

/-- Places in the two texts: the seam is ahead, in a region that the scan from here leads to, or it has
been passed. A seam within a string cannot be passed. -/
def Near (In : Region → Prop) (x y : List Char) (r : Region) (cs ds : List Char) : Prop :=
  (∃ u, In (r.after u) ∧ cs = u ++ x ∧ ds = u ++ y) ∨ In .code ∧ cs = ds

/-- Neither text starts with a token or with space within a line. -/
structure Barren (cs ds : List Char) : Prop where
  tokenless : Tokenless cs ∧ Tokenless ds
  settled : skipBlank false cs = cs ∧ skipBlank false ds = ds

/-- Places between tokens. -/
def Seam.Amid (In : Region → Prop) (x y cs ds : List Char) : Prop :=
  Near In x y .code cs ds ∨ Barren cs ds

theorem rel_of_eq {R : α → α → Prop} (hR : ∀ a, R a a) {o o' : Option α} (h : o = o') :
    Option.Rel R o o' := by
  subst h
  cases o with
  | none => exact .none
  | some a => exact .some (hR a)

theorem skipBlank_skipBlank (lines : Bool) (cs : List Char) :
    skipBlank lines (skipBlank lines cs) = skipBlank lines cs := by
  induction cs using skipBlank_induction lines with
  | piece cs rest h ih => rw [h.skipBlank_eq, ih]
  | none cs h => rw [h.skipBlank_eq, h.skipBlank_eq]

/-- A line comment starts in what comes before a seam, or nowhere. -/
theorem afterRemark_append {v z : List Char} (hne : v ≠ []) (hv : ¬ ['/', '/'] <+: v)
    (hz : v = ['/'] → Uncommented z) : afterRemark (v ++ z) = v ++ z := by
  apply afterRemark_of_not_remark
  intro hremark
  cases v with
  | nil => exact hne rfl
  | cons c v =>
    obtain ⟨rfl, hrest⟩ := List.cons_prefix_cons.1 hremark
    cases v with
    | nil =>
      obtain ⟨t, rfl⟩ := hrest
      exact (hz rfl '/' rfl).1 rfl
    | cons d v =>
      obtain ⟨rfl, -⟩ := List.cons_prefix_cons.1 hrest
      exact hv (List.prefix_append ['/', '/'] v)

theorem misses_divide_of_head {cs : List Char} (h : cs.head? ≠ some '/') :
    Misses (operatorSign .divide) cs := .bind (.text_of_head rfl h)

theorem divide_cases (cs : List Char) :
    (∃ t, cs = '/' :: t ∧ Uncommented t) ∨ Misses (operatorSign .divide) cs := by
  by_cases hslash : cs.head? = some '/'
  · obtain ⟨t, rfl⟩ := List.head?_eq_some_iff.1 hslash
    by_cases hcomment : ∃ c ∈ t.head?, c = '/' ∨ c = '*'
    · obtain ⟨c, hc, hcomment⟩ := hcomment
      exact .inr (LineEnds.misses_divide hc hcomment)
    · exact .inl ⟨t, rfl, by simpa [Uncommented] using hcomment⟩
  · exact .inr (misses_divide_of_head hslash)

namespace Tokenless

variable {cs : List Char}

theorem head_eq_false (h : Tokenless cs) {t : Char → Bool}
    (ht : ∀ c, t c = true → isSpace c = false ∧ c ≠ '/') : ∀ c ∈ cs.head?, t c = false := by
  have hslash : t '/' = false := Bool.eq_false_iff.2 fun hc => (ht _ hc).2 rfl
  intro c hc
  cases h with
  | nil => cases hc
  | space hspace =>
    cases hc
    refine Bool.eq_false_iff.2 fun hc => ?_
    rw [(ht _ hc).1] at hspace
    cases hspace
  | block =>
    cases hc
    exact hslash
  | remark =>
    cases hc
    exact hslash

theorem misses_divide (h : Tokenless cs) :
    Misses (operatorSign .divide) cs := by
  cases h with
  | nil => exact misses_divide_of_head (by simp)
  | space hc =>
    apply misses_divide_of_head
    intro hhead
    cases hhead
    cases hc
  | block => exact LineEnds.misses_divide rfl (.inr rfl)
  | remark => exact LineEnds.misses_divide rfl (.inl rfl)

end Tokenless

namespace Seam

variable {In : Region → Prop} {x y cs ds : List Char} (h : Seam In x y)
include h

theorem uncommented : (In .slash → Uncommented x) ∧ (In .slash → Uncommented y) :=
  ⟨fun hs => (h.slash hs).2.1, fun hs => (h.slash hs).2.2⟩

/-! ## Space and line ends -/

/-- All that is blank ends at corresponding places. -/
theorem near_blank (hn : Near In x y .code cs ds) :
    Near In x y .code (skipBlank true cs) (skipBlank true ds) := by
  rcases hn with ⟨u, hu, rfl, rfl⟩ | ⟨hcode, rfl⟩
  · cases stop_skipBlank h.closed hu with
    | ahead _ hv hskip =>
      exact .inl ⟨_, hv, hskip x h.uncommented.1, hskip y h.uncommented.2⟩
    | seam hcode hskip =>
      refine .inr ⟨hcode, ?_⟩
      rw [hskip, hskip, h.blank hcode]
    | remark hremark _ hskip =>
      obtain ⟨hcode, hblank, -⟩ := h.remark hremark
      refine .inr ⟨hcode, ?_⟩
      rw [hskip, hskip, hblank]
  · exact .inr ⟨hcode, rfl⟩

/-- The space of a line ends at corresponding places, or where neither text has a token. -/
theorem near_space (hn : Near In x y .code cs ds) :
    Amid In x y (skipBlank false cs) (skipBlank false ds) := by
  rcases hn with ⟨u, hu, rfl, rfl⟩ | ⟨hcode, rfl⟩
  · cases stop_skipBlank h.closed hu with
    | ahead _ hv hskip =>
      exact .inl (.inl ⟨_, hv, hskip x h.uncommented.1, hskip y h.uncommented.2⟩)
    | seam hcode hskip =>
      rw [hskip, hskip]
      -- one of the texts may have a line comment here where the other has the end of the line
      rcases h.space hcode with heq | hnone
      · exact .inl (.inr ⟨hcode, heq⟩)
      · exact .inr ⟨hnone, skipBlank_skipBlank false x, skipBlank_skipBlank false y⟩
    | remark _ hlines _ => cases hlines
  · exact .inl (.inr ⟨hcode, rfl⟩)

/-- What follows a line end, where both texts have one, or neither. -/
theorem near_newline {c : Char} {v : List Char} (hv : c = '\n' → In (Region.code.after v)) :
    Option.Rel (Near In x y .code) (afterNewline? (c :: (v ++ x)))
      (afterNewline? (c :: (v ++ y))) := by
  by_cases hc : c = '\n'
  · subst hc
    exact .some (h.near_blank (.inl ⟨v, hv rfl, rfl, rfl⟩))
  · have hnone (cs : List Char) : afterNewline? (c :: cs) = none := by simp [afterNewline?, hc]
    rw [hnone, hnone]
    exact .none

/-- What follows a line end behind a line comment, if there is one before the seam. -/
theorem near_remark {v : List Char} (hne : v ≠ []) (hv : In (Region.code.after v)) :
    Option.Rel (Near In x y .code) (afterNewline? (afterRemark (v ++ x)))
      (afterNewline? (afterRemark (v ++ y))) := by
  by_cases hremark : ['/', '/'] <+: v
  · -- the comment ends before the seam, or both texts are read on to its end
    obtain ⟨w, rfl⟩ := hremark
    have hafter (z : List Char) : afterRemark (['/', '/'] ++ w ++ z) =
        (w ++ z).dropWhile isLineChar := rfl
    rw [hafter, hafter]
    rcases Region.dropWhile_cases w with ⟨c, v, -, -, hw, hdrop⟩ | ⟨hopen, hdrop⟩
    · rw [hdrop, hdrop]
      apply h.near_newline
      intro _
      rw [hw]
      exact hv
    · have hin : In .remark := by
        rw [← hopen]
        exact hv
      obtain ⟨hcode, -, hnewline⟩ := h.remark hin
      rw [hdrop, hdrop]
      exact rel_of_eq (fun rest => .inr ⟨hcode, rfl⟩) hnewline
  · have hslash (hv' : v = ['/']) : In .slash := by
      rw [hv'] at hv
      exact hv
    rw [afterRemark_append hne hremark fun hv' => h.uncommented.1 (hslash hv'),
      afterRemark_append hne hremark fun hv' => h.uncommented.2 (hslash hv')]
    cases v with
    | nil => exact absurd rfl hne
    | cons c v =>
      apply h.near_newline
      rintro rfl
      exact hv

/-- The rest of a line without code ends at corresponding places, or in neither text. -/
theorem near_line (hn : Near In x y .code cs ds) :
    Option.Rel (Near In x y .code) (afterLine? cs) (afterLine? ds) := by
  rcases hn with ⟨u, hu, rfl, rfl⟩ | ⟨hcode, rfl⟩
  · cases stop_skipBlank h.closed hu with
    | ahead hne hv hskip =>
      rw [afterLine?, afterLine?, hskip x h.uncommented.1, hskip y h.uncommented.2]
      exact h.near_remark hne hv
    | seam hcode hskip =>
      apply rel_of_eq fun rest => .inr ⟨hcode, rfl⟩
      rw [afterLine?, afterLine?, hskip, hskip]
      exact h.line hcode
    | remark _ hlines _ => cases hlines
  · exact rel_of_eq (fun rest => .inr ⟨hcode, rfl⟩) rfl

theorem nil_iff (hn : Near In x y .code cs ds) : cs = [] ↔ ds = [] := by
  rcases hn with ⟨u, -, rfl, rfl⟩ | ⟨-, rfl⟩
  · simp [h.ne_nil]
  · rfl

/-! ## Tokens and strings -/

/-- A slash before the seam is a division sign in both texts, or in neither. -/
theorem near_slash {v : List Char} (hv : In (Region.slash.after v)) :
    (Uncommented (v ++ x) ∧ Uncommented (v ++ y) ∧ Near In x y .code (v ++ x) (v ++ y)) ∨
    (Misses (operatorSign .divide) ('/' :: (v ++ x)) ∧
      Misses (operatorSign .divide) ('/' :: (v ++ y))) := by
  cases v with
  | nil =>
    obtain ⟨hcode, hx, hy⟩ := h.slash hv
    exact .inl ⟨hx, hy, .inl ⟨[], hcode, rfl, rfl⟩⟩
  | cons c v =>
    by_cases hc : c = '/' ∨ c = '*'
    · exact .inr ⟨LineEnds.misses_divide rfl hc, LineEnds.misses_divide rfl hc⟩
    · have hfree (z : List Char) : Uncommented (c :: z) := by
        intro d hd
        cases hd
        exact not_or.1 hc
      rw [Region.after_slash (List.cons_ne_nil c v) (hfree v)] at hv
      exact .inl ⟨hfree _, hfree _, .inl ⟨c :: v, hv, rfl, rfl⟩⟩

/-- A division sign stands in both texts, or neither goes on with one. -/
theorem near_divide (hn : Amid In x y cs ds) :
    (∃ t t', cs = '/' :: t ∧ ds = '/' :: t' ∧ Uncommented t ∧ Uncommented t' ∧
      Near In x y .code t t') ∨
    (Misses (operatorSign .divide) cs ∧ Misses (operatorSign .divide) ds) := by
  rcases hn with (⟨u, hu, rfl, rfl⟩ | ⟨hcode, rfl⟩) | hbarren
  · cases u with
    | nil =>
      obtain ⟨hx, hy⟩ := h.tokenless hu
      exact .inr ⟨hx.misses_divide, hy.misses_divide⟩
    | cons c v =>
      by_cases hc : c = '/'
      · subst hc
        rcases h.near_slash hu with ⟨hx, hy, hnear⟩ | hmiss
        · exact .inl ⟨_, _, rfl, rfl, hx, hy, hnear⟩
        · exact .inr hmiss
      · have hmiss (cs : List Char) : Misses (operatorSign .divide) (c :: cs) :=
          misses_divide_of_head (by simpa using hc)
        exact .inr ⟨hmiss _, hmiss _⟩
  · rcases divide_cases cs with ⟨t, rfl, ht⟩ | hmiss
    · exact .inl ⟨t, t, rfl, rfl, ht, ht, .inr ⟨hcode, rfl⟩⟩
    · exact .inr ⟨hmiss, hmiss⟩
  · exact .inr ⟨hbarren.tokenless.1.misses_divide, hbarren.tokenless.2.misses_divide⟩

end Seam

/-! ## The two readings -/

/-- Errors of the two readings need not stand at corresponding places. -/
def Seam.comparison : Comparison where
  Place _ _ := True
  Lost := False

/-- Passing over what is blank, where that leads to corresponding places. -/
theorem parallel_skipBlank {w : Comparison} {n : Nat} {p : Parser Unit} {lines : Bool}
    {A B : List Char → List Char → Prop} (hp : ∀ cs, Reads p cs (skipBlank lines cs) fun _ => True)
    (hAB : ∀ cs ds, A cs ds → B (skipBlank lines cs) (skipBlank lines ds)) :
    Parallel w n 0 (fun i j => A i.chars j.chars) p p (fun _ _ => True)
      fun i j => B i.chars j.chars := by
  intro i j _ h
  refine .of_reads (hp _) (hp _) (fun _ _ _ _ => trivial) ⟨hAB _ _ h, ?_, ?_⟩
  · rw [i.bytes_eq]
    exact byteCount_le_of_suffix (skipBlank_suffix lines i.chars)
  · rw [j.bytes_eq]
    exact byteCount_le_of_suffix (skipBlank_suffix lines j.chars)

/-- A division sign that stands in both texts or in neither. -/
theorem parallel_divideSign {w : Comparison} {n : Nat} {A B : List Char → List Char → Prop}
    (hAB : ∀ cs ds, A cs ds →
      (∃ t t', cs = '/' :: t ∧ ds = '/' :: t' ∧ Uncommented t ∧ Uncommented t' ∧ B t t') ∨
      (Misses (operatorSign .divide) cs ∧ Misses (operatorSign .divide) ds)) :
    Parallel w n 1 (fun i j => A i.chars j.chars) (operatorSign .divide) (operatorSign .divide)
      (fun _ _ => True) fun i j => B i.chars j.chars := by
  intro i j _ hn
  rcases hAB _ _ hn with ⟨t, t', hi, hj, ht, ht', hrest⟩ | ⟨hi, hj⟩
  · have hread : Reads (operatorSign .divide) i.chars t fun _ => True := by
      rw [hi]
      exact LineEnds.reads_divide ht
    have hread' : Reads (operatorSign .divide) j.chars t' fun _ => True := by
      rw [hj]
      exact LineEnds.reads_divide ht'
    refine .of_reads hread hread' (fun _ _ _ _ => trivial) ⟨hrest, ?_, ?_⟩
    · rw [i.bytes_eq, hi]
      exact byteCount_lt_of_append (List.cons_ne_nil '/' []) t
    · rw [j.bytes_eq, hj]
      exact byteCount_lt_of_append (List.cons_ne_nil '/' []) t'
  · exact .of_misses hi hj

/-- A line end that is read in both texts. -/
theorem match_lineEnd {w : Comparison} {item : String} {i j : Cursor} {rest rest' : List Char}
    {B : List Char → List Char → Prop} (hi : afterLine? i.chars = some rest)
    (hj : afterLine? j.chars = some rest') (hB : B rest rest') :
    w.Match (fun _ _ => True) (Beyond 0 (fun i j => B i.chars j.chars) i j) (expect item lineEnd i)
      (expect item lineEnd j) := by
  refine .of_reads (.expect (reads_lineEnd_of_afterLine? hi))
    (.expect (reads_lineEnd_of_afterLine? hj)) (fun _ _ _ _ => trivial) ⟨hB, ?_, ?_⟩
  · rw [i.bytes_eq]
    exact byteCount_le_of_suffix (afterLine?_suffix hi)
  · rw [j.bytes_eq]
    exact byteCount_le_of_suffix (afterLine?_suffix hj)

namespace Near

variable {In : Region → Prop} {x y : List Char} {r r' : Region} {t : Char → Bool}

/-- Characters before a seam stand at the same places in both texts. -/
theorem steps (hnext : ∀ c, t c = true → r.next c = r') (hx : In r → ∀ c ∈ x.head?, t c = false)
    (hy : In r → ∀ c ∈ y.head?, t c = false) :
    Parallel.Steps t (fun i j => Near In x y r i.chars j.chars)
      (fun i j => Near In x y r' i.chars j.chars) where
  head {i j c} hij hc := by
    rcases hij with ⟨u, hu, hi, hj⟩ | ⟨-, heq⟩
    · rw [hi, hj]
      cases u with
      | nil =>
        constructor
        · intro hhead
          rw [hx hu c hhead] at hc
          cases hc
        · intro hhead
          rw [hy hu c hhead] at hc
          cases hc
      | cons d u => rfl
    · rw [heq]
  skip {i j c} hij hc hhead := by
    rcases hij with ⟨u, hu, hi, hj⟩ | ⟨hcode, heq⟩
    · rw [hi] at hhead
      cases u with
      | nil =>
        rw [hx hu c hhead] at hc
        cases hc
      | cons d u =>
        cases hhead
        rw [Region.after_cons, hnext _ hc] at hu
        exact .inl ⟨u, hu, by simp [hi], by simp [hj]⟩
    · exact .inr ⟨hcode, by simp [heq]⟩

end Near

namespace Seam

variable {In : Region → Prop} {x y : List Char} (h : Seam In x y) {n : Nat}

include h

/-- A character that starts a token stands in both texts or in neither. -/
theorem steps_amid {t : Char → Bool} {r : Region}
    (ht : ∀ c, t c = true → isSpace c = false ∧ c ≠ '/')
    (hnext : ∀ c, t c = true → Region.code.next c = r) :
    Parallel.Steps t (fun i j => Amid In x y i.chars j.chars)
      (fun i j => Near In x y r i.chars j.chars) := by
  have hnear := Near.steps hnext (fun hcode => (h.tokenless hcode).1.head_eq_false ht)
    fun hcode => (h.tokenless hcode).2.head_eq_false ht
  have hnone {cs : List Char} {c : Char} (hcs : Tokenless cs) (hc : t c = true) :
      cs.head? ≠ some c := by
    intro hhead
    rw [hcs.head_eq_false ht c hhead] at hc
    cases hc
  constructor
  · rintro i j c (hij | hij) hc
    · exact hnear.head hij hc
    · exact iff_of_false (hnone hij.tokenless.1 hc) (hnone hij.tokenless.2 hc)
  · rintro i j c (hij | hij) hc hhead
    · exact hnear.skip hij hc hhead
    · exact absurd hhead (hnone hij.tokenless.1 hc)

theorem parallel_space :
    Parallel comparison n 0 (fun i j => Amid In x y i.chars j.chars) Grammar.space Grammar.space
      (fun _ _ => True) fun i j => Amid In x y i.chars j.chars := by
  apply parallel_skipBlank reads_space_skip
  rintro cs ds (hn | hn)
  · exact h.near_space hn
  · rw [hn.settled.1, hn.settled.2]
    exact .inr hn

theorem parallel_lineEnd (item : String) :
    Parallel comparison n 0 (fun i j => Near In x y .code i.chars j.chars) (expect item lineEnd)
      (expect item lineEnd) (fun _ _ => True) fun i j => Near In x y .code i.chars j.chars := by
  intro i j _ hn
  have hline := h.near_line hn
  generalize hi : afterLine? i.chars = line at hline
  generalize hj : afterLine? j.chars = line' at hline
  cases hline with
  | some hrest => exact match_lineEnd hi hj hrest
  | none =>
    rw [expect_of_misses item (misses_lineEnd_of_afterLine? hi),
      expect_of_misses item (misses_lineEnd_of_afterLine? hj)]
    exact .halt trivial

theorem parallel_divide : Parallel comparison n 1 (fun i j => Amid In x y i.chars j.chars)
    (operatorSign .divide) (operatorSign .divide) (fun _ _ => True)
    fun i j => Near In x y .code i.chars j.chars :=
  parallel_divideSign fun _ _ => h.near_divide

/-- Within a string both texts go on alike, and behind a seam in it neither does. -/
theorem steps_quoted {t : Char → Bool} {r r' : Region} (hr : r = .quoted ∨ r = .escaped)
    (ht : t '\n' = false) (hnext : ∀ c, t c = true → r.next c = r') :
    Parallel.Steps t (fun i j => Near In x y r i.chars j.chars)
      (fun i j => Near In x y r' i.chars j.chars) := by
  have hheads (hin : In r) : x.head? = some '\n' ∧ y.head? = some '\n' := by
    apply h.quoted
    rcases hr with rfl | rfl
    · exact .inl hin
    · exact .inr hin
  apply Near.steps hnext
  · intro hin c hc
    rw [(hheads hin).1] at hc
    cases hc
    exact ht
  · intro hin c hc
    rw [(hheads hin).2] at hc
    cases hc
    exact ht

theorem parallel_stringItem :
    Parallel comparison n 1 (fun i j => Near In x y .quoted i.chars j.chars) stringItem stringItem Eq
      fun i j => Near In x y .quoted i.chars j.chars := by
  apply Parallel.stringItem (B := fun i j => Near In x y .escaped i.chars j.chars)
  · apply h.steps_quoted (.inl rfl) (by decide)
    intro c hc
    simp at hc
    simp [Region.next, hc]
  · apply h.steps_quoted (.inl rfl) (by decide)
    intro c hc
    rw [beq_iff_eq.1 hc]
    rfl
  · exact h.steps_quoted (.inr rfl) (by decide) fun _ _ => rfl

theorem parallel_openQuote :
    Parallel comparison n 1 (fun i j => Amid In x y i.chars j.chars) (char '"') (char '"') Eq
      fun i j => Near In x y .quoted i.chars j.chars := by
  apply Parallel.char
  apply h.steps_amid
  · intro c hc
    rw [beq_iff_eq.1 hc]
    decide
  · intro c hc
    rw [beq_iff_eq.1 hc]
    rfl

theorem parallel_closeQuote :
    Parallel comparison n 1 (fun i j => Near In x y .quoted i.chars j.chars) (char '"') (char '"') Eq
      fun i j => Near In x y .code i.chars j.chars := by
  apply Parallel.char
  apply h.steps_quoted (.inl rfl) (by decide)
  intro c hc
  rw [beq_iff_eq.1 hc]
  rfl

theorem steps_plain : Parallel.Steps isPlain (fun i j => Amid In x y i.chars j.chars)
    (fun i j => Near In x y .code i.chars j.chars) := by
  apply h.steps_amid
  · intro c hc
    simp only [isPlain, Bool.and_eq_true, Bool.not_eq_true', bne_iff_ne] at hc
    exact hc.1
  · intro c hc
    exact Region.next_code (ne_of_test hc (by decide)) (ne_of_test hc (by decide))

/-- The two texts have the same tokens. -/
def respacing : Respacing where
  toComparison := comparison
  Amid i j := Amid In x y i.chars j.chars
  Behind i j := Near In x y .code i.chars j.chars
  Fresh i j := Near In x y .code i.chars j.chars
  Quoted i j := Near In x y .quoted i.chars j.chars
  amid_of_behind _ _ := .inl
  amid_of_fresh _ _ h := .inl (.inl h)
  lost_of_short h := h.elim
  point _ _ _ := rfl
  plain := h.steps_plain
  place_plain _ _ _ _ _ _ := trivial
  place_behindSpace _ _ _ := trivial
  space _ := h.parallel_space
  lineEnd _ item := h.parallel_lineEnd item
  divide _ := h.parallel_divide
  openQuote _ := h.parallel_openQuote
  stringItem _ := h.parallel_stringItem
  closeQuote _ := h.parallel_closeQuote
  nil_iff _ _ _ := h.nil_iff

/-- A program that is read from the first text is read from the second, in everything but its places;
and the seam lies in code or a comment. -/
theorem exists_parse {s t : String} {pre : List Char} {p : Program} (hs : s.toList = pre ++ x)
    (ht : t.toList = pre ++ y) (hpre : In (Region.code.after pre)) (hp : Program.parse s = .ok p) :
    (∃ q, Program.parse t = .ok q ∧ q.erase = p.erase) ∧ In .code := by
  have hstart : Near In x y .code (Cursor.ofString s).chars (Cursor.ofString t).chars :=
    .inl ⟨pre, hpre, hs, ht⟩
  have hblank := parallel_skipBlank (w := comparison) (n := (Cursor.ofString s).bytes + 1)
    reads_blank_skip fun _ _ => h.near_blank
  have hmatch := Respacing.program (W := h.respacing) id hblank (Nat.lt_succ_self _) hstart
  simp only [Program.parse, Parser.read] at hp ⊢
  generalize Grammar.program (.ofString s) = reply at hp hmatch
  generalize Grammar.program (.ofString t) = reply' at hmatch ⊢
  cases hmatch with
  | @done a q i j m m' hvalue hrest =>
    cases hp
    refine ⟨⟨q, rfl, ?_⟩, ?_⟩
    · rw [Program.erase_eq_relocate, Program.erase_eq_relocate]
      exact hvalue.eq.symm
    -- the end of the text lies behind the seam
    obtain ⟨⟨hn, hend⟩, -⟩ := hrest
    rcases hn with ⟨u, -, hi, -⟩ | ⟨hcode, -⟩
    · rw [hend] at hi
      exact absurd (List.append_eq_nil_iff.1 hi.symm).2 h.ne_nil.1
    · exact hcode
  | miss => cases hp
  | halt => cases hp
  | lost hlost => cases hlost

end Seam

end Primer
