import Primer.Proofs.Appending.Text

/-!
A text before a sign that closes something. The text ends outside of comments and strings, and behind it
stands a closing bracket or a line feed. No token and no space goes on over its end then, so that what is
read within it is the same as if nothing followed. A slash at the end of the text does not matter, as no
comment starts with it: the region behind it counts as code (`Region.settled`).
-/

namespace Primer

open Primer.Parser Primer.Grammar

namespace Region

/-- The region, as it is if no comment follows. -/
def settled : Region → Region
  | slash => code
  | r => r

theorem not_isBlock_of_settled {r : Region} (h : r.settled = code) : ¬ r.IsBlock := by
  rintro (rfl | rfl)
  all_goals cases h

/-- A slash leaves no trace, unless a comment starts with it. -/
theorem settled_after_slash {cs : List Char} (h : Uncommented cs) :
    (slash.after cs).settled = (code.after cs).settled := by
  by_cases hne : cs = []
  · rw [hne]
    rfl
  · rw [after_slash hne h]

/-- The space of a line leaves the region as it is. -/
theorem after_skipSpace (cs : List Char) : code.after (skipBlank false cs) = code.after cs := by
  induction cs using skipBlank_induction false with
  | piece cs rest h ih =>
    rw [h.skipBlank_eq, ih]
    cases h with
    | block h => exact (after_of_afterBlock? h).symm
    | remark h => cases h
    | space hc => rw [after_cons, next_code (ne_of_test hc (by decide)) (ne_of_test hc (by decide))]
    | newline h => cases h
  | none cs h => rw [h.skipBlank_eq]

end Region

/-- The signs that close an expression. -/
def closers : List Char := [')', ']', '\n']

theorem forall_mem_closers {P : Char → Prop} : (∀ c ∈ closers, P c) ↔ P ')' ∧ P ']' ∧ P '\n' := by
  simp [closers]

theorem of_mem_closers : ∀ c ∈ closers, c ≠ '/' ∧ c ≠ '*' ∧ isInlineSpace c = false :=
  forall_mem_closers.2 (by decide)

/-- What may follow a text that ends in the region `e`: nothing, or a closing sign behind code. -/
def Closes (e : Region) (d : List Char) : Prop := d = [] ∨ e = .code ∧ ∃ c ∈ d.head?, c ∈ closers

namespace Closes

variable {e : Region} {d : List Char}

theorem nil : Closes e [] := .inl rfl

theorem cons {c : Char} (hc : c ∈ closers) (cs : List Char) : Closes .code (c :: cs) :=
  .inr ⟨rfl, c, rfl, hc⟩

theorem uncommented (h : Closes e d) : Uncommented d := by
  intro b hb
  rcases h with rfl | ⟨-, c, hc, hmem⟩
  · cases hb
  · obtain rfl := Option.mem_unique hb hc
    exact ⟨(of_mem_closers b hmem).1, (of_mem_closers b hmem).2.1⟩

theorem skipBlank_eq (h : Closes e d) : skipBlank false d = d := by
  rcases h with rfl | ⟨-, c, hc, hmem⟩
  · exact NoPiece.nil.skipBlank_eq
  · obtain ⟨t, rfl⟩ := List.head?_eq_some_iff.1 hc
    obtain ⟨hslash, -, hspace⟩ := of_mem_closers c hmem
    exact (NoPiece.other hslash hspace fun h => by cases h).skipBlank_eq

/-- The space of a line ends within the text, or at its end. -/
theorem skipBlank_append (h : Closes e d) {ds : List Char} (hds : (Region.code.after ds).settled = e) :
    skipBlank false (ds ++ d) = skipBlank false ds ++ d := by
  rcases h with rfl | ⟨rfl, hc⟩
  · rw [List.append_nil, List.append_nil]
  · have hd : Closes .code d := .inr ⟨rfl, hc⟩
    have hstop : Stop (·.settled = .code) false ds :=
      stop_skipBlank (fun _ => Region.not_isBlock_of_settled) hds
    cases hstop with
    | @ahead v _ _ hskip =>
      have hv : skipBlank false ds = v := by
        simpa using hskip [] fun _ => (nil (e := .code)).uncommented
      rw [hv, hskip d fun _ => hd.uncommented]
    | seam _ hskip =>
      have hv := hskip []
      rw [List.append_nil, (nil (e := .code)).skipBlank_eq] at hv
      rw [hv, hskip d, hd.skipBlank_eq, List.nil_append]
    | remark _ hlines => cases hlines

end Closes

/-! ## Places in a text and in the text alone -/

/-- Places in a text with `d` behind it and in the text alone: `d` is still ahead, and behind the place
lies the region `r`, from which the text leads to the region `e` at its end. -/
structure Followed (d : List Char) (e r : Region) (cs ds : List Char) : Prop where
  region : (r.after ds).settled = e
  text : cs = ds ++ d

namespace Followed

variable {d : List Char} {e r r' : Region} {cs ds : List Char}

theorem tail {c : Char} {v : List Char} (h : Followed d e r (c :: cs) (c :: v)) (hr : r.next c = r') :
    Followed d e r' cs v where
  region := by rw [← hr, ← Region.after_cons, h.region]
  text := List.cons_injective h.text

theorem exists_cons {c : Char} (h : Followed d e r cs ds) (hds : ds.head? = some c) :
    ∃ t v, cs = c :: t ∧ ds = c :: v := by
  obtain ⟨v, rfl⟩ := List.head?_eq_some_iff.1 hds
  exact ⟨v ++ d, v, h.text, rfl⟩

theorem skip {i j : Cursor} {c : Char} (h : Followed d e r i.chars j.chars)
    (hc : j.chars.head? = some c) (hr : r.next c = r') :
    Followed d e r' (i.skip 1).chars (j.skip 1).chars := by
  obtain ⟨u, v, hi, hj⟩ := h.exists_cons hc
  rw [hi, hj] at h
  simpa [hi, hj] using h.tail hr

variable (hd : Closes e d)
include hd

theorem space (h : Followed d e .code cs ds) :
    Followed d e .code (skipBlank false cs) (skipBlank false ds) where
  region := by rw [Region.after_skipSpace, h.region]
  text := by rw [h.text, hd.skipBlank_append h.region]

/-- At its end the text alone has no character, and the other one a closing sign, if any. -/
theorem head?_iff (h : Followed d e r cs ds) {c : Char} (hc : r.settled = .code → c ∉ closers) :
    cs.head? = some c ↔ ds.head? = some c := by
  obtain ⟨hregion, rfl⟩ := h
  cases ds with
  | cons b v => rfl
  | nil =>
    rcases hd with rfl | ⟨rfl, b, hb, hmem⟩
    · rfl
    · rw [List.nil_append, hb]
      constructor
      · intro heq
        obtain rfl := Option.some.inj heq
        exact absurd hmem (hc hregion)
      · intro heq
        cases heq

/-- A character other than a closing sign stands in both texts or in neither. -/
theorem steps {t : Char → Bool} (ht : r.settled = .code → ∀ c ∈ closers, t c = false)
    (hnext : ∀ c, t c = true → r.next c = r') :
    Parallel.Steps t (fun i j => Followed d e r i.chars j.chars)
      (fun i j => Followed d e r' i.chars j.chars) := by
  have hclosers {c : Char} (hc : t c = true) (hr : r.settled = .code) : c ∉ closers := by
    intro hmem
    rw [ht hr c hmem] at hc
    cases hc
  refine ⟨fun hij hc => hij.head?_iff hd (hclosers hc), fun {i j c} hij hc hhead => ?_⟩
  exact hij.skip ((hij.head?_iff hd (hclosers hc)).1 hhead) (hnext c hc)

/-- A division sign stands in both texts, or in neither. -/
theorem divide (h : Followed d e .code cs ds) :
    (∃ t t', cs = '/' :: t ∧ ds = '/' :: t' ∧ Uncommented t ∧ Uncommented t' ∧
      Followed d e .code t t') ∨
    (Misses (operatorSign .divide) cs ∧ Misses (operatorSign .divide) ds) := by
  by_cases hslash : ds.head? = some '/'
  · obtain ⟨t, v, rfl, rfl⟩ := h.exists_cons hslash
    obtain ⟨hregion, htext⟩ : Followed d e .slash t v := h.tail rfl
    by_cases hv : Uncommented v
    · refine .inl ⟨t, v, rfl, rfl, ?_, hv, ?_, htext⟩
      · rw [htext]
        cases v with
        | nil => exact hd.uncommented
        | cons b v => exact hv
      · rw [← Region.settled_after_slash hv, hregion]
    · have hcomment : ∃ b v', v = b :: v' ∧ (b = '/' ∨ b = '*') := by
        cases v with
        | nil => exact absurd (Closes.nil (e := e)).uncommented hv
        | cons b v' =>
          refine ⟨b, v', rfl, ?_⟩
          by_contra hb
          exact hv fun a ha => by cases ha; exact not_or.1 hb
      obtain ⟨b, v', rfl, hb⟩ := hcomment
      rw [htext]
      exact .inr ⟨LineEnds.misses_divide rfl hb, LineEnds.misses_divide rfl hb⟩
  · have hcs : cs.head? ≠ some '/' := fun hcs =>
      hslash ((h.head?_iff hd fun _ => by decide).1 hcs)
    exact .inr ⟨misses_divide_of_head hcs, misses_divide_of_head hslash⟩

end Followed

end Primer
