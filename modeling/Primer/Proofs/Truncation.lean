import Primer.Canonical
import Primer.Target.Program

/-!
Writing into a buffer that may be too small. The run on a buffer goes along with the run on a text as
long as the text fits, and the two pages differ in their sinks only. The step that overruns the
buffer still fills it, nothing is written after that, and what the text takes on later lies behind
the bytes that the buffer keeps. So the buffer always ends with the first bytes of the whole text.
-/

namespace Primer

namespace Buffer

/-- The buffer that holds the text, or the part of it for which there is room. -/
def holding (capacity : Nat) (text : String) : Buffer :=
  ⟨capacity, text.toUTF8.extract 0 capacity⟩

theorem holding_empty (n : Nat) : holding n "" = empty n := by
  simp [holding, empty]

/-- Only what follows the end of a text that fits needs room. -/
theorem put_holding {n : Nat} {s : String} (h : s.utf8ByteSize ≤ n) (t : String) :
    (holding n s).put t = (holding n (s ++ t), decide ((s ++ t).utf8ByteSize ≤ n)) := by
  have hsize : (s.toUTF8.extract 0 n).size = s.utf8ByteSize := by
    rw [ByteArray.size_extract, String.toUTF8_eq_toByteArray, String.size_toByteArray]
    omega
  have hstored : s.toUTF8.extract 0 n ++ t.toUTF8.extract 0 (n - s.utf8ByteSize) =
      (s ++ t).toUTF8.extract 0 n := by
    simp only [String.toUTF8_eq_toByteArray, String.toByteArray_append, ByteArray.extract_append,
      String.size_toByteArray, Nat.zero_sub]
  have hroom : t.utf8ByteSize ≤ n - s.utf8ByteSize ↔ (s ++ t).utf8ByteSize ≤ n := by
    rw [String.utf8ByteSize_append]
    omega
  simp only [put, holding, hsize, hstored, hroom]

/-- A full buffer keeps its bytes, whatever the text goes on with. -/
theorem holding_append {n : Nat} {s : String} (h : n ≤ s.utf8ByteSize) (t : String) :
    holding n (s ++ t) = holding n s := by
  have hnone : t.toByteArray.extract 0 (n - s.utf8ByteSize) = ByteArray.empty := by
    rw [ByteArray.extract_eq_empty_iff]
    omega
  simp only [holding, String.toUTF8_eq_toByteArray, String.toByteArray_append,
    ByteArray.extract_append, String.size_toByteArray, Nat.zero_sub, hnone,
    ByteArray.append_empty]

end Buffer

/-- The page with its text in a buffer. -/
def Page.within (n : Nat) (page : Page String) : Page Buffer :=
  { page with sink := Buffer.holding n page.sink }

/-- What has come of writing into a buffer, next to what has come of writing the same into a text. -/
inductive Outcome (n : Nat) : Page Buffer × Bool → Page String × Bool → Prop where
  | fits {page : Page String} :
    page.sink.utf8ByteSize ≤ n → Outcome n (page.within n, true) (page, true)
  | full {page : Page Buffer} {page' : Page String} :
    n < page'.sink.utf8ByteSize → page.sink = Buffer.holding n page'.sink →
    Outcome n (page, false) (page', true)

/-- Two ways of writing, one into a buffer of capacity `n` and one into a text, which write the same
as far as the buffer has room. -/
structure Cuts (n : Nat) (bounded : Page Buffer → Page Buffer × Bool)
    (free : Page String → Page String × Bool) : Prop where
  /-- A text keeps what is written in it and takes everything. -/
  grows : ∀ page, (free page).2 = true ∧ ∃ more, (free page).1.sink = page.sink ++ more
  outcome : ∀ page : Page String, page.sink.utf8ByteSize ≤ n →
    Outcome n (bounded (page.within n)) (free page)

namespace Cuts

variable {n : Nat} {f f' : Page Buffer → Page Buffer × Bool} {g g' : Page String → Page String × Bool}

theorem put (text : String) : Cuts n (Page.put · text) (Page.put · text) where
  grows page := ⟨rfl, text, rfl⟩
  outcome page h := by
    have hput : (page.within n).put text =
        (({ page with sink := page.sink ++ text } : Page String).within n,
          decide ((page.sink ++ text).utf8ByteSize ≤ n)) := by
      simp only [Page.put, Page.within, Sink.put, Buffer.put_holding h]
    rw [hput]
    by_cases hroom : (page.sink ++ text).utf8ByteSize ≤ n
    · rw [decide_eq_true hroom]
      exact .fits hroom
    · rw [decide_eq_false hroom]
      exact .full (Nat.lt_of_not_le hroom) rfl

/-- A change of the page that writes nothing. -/
theorem keep {k : Page Buffer → Page Buffer} {k' : Page String → Page String}
    (hsink : ∀ page, (k' page).sink = page.sink)
    (hk : ∀ page : Page String, k (page.within n) = (k' page).within n) :
    Cuts n (fun page => (k page, true)) (fun page => (k' page, true)) where
  grows page := ⟨rfl, "", by rw [hsink, String.append_empty]⟩
  outcome page h := by
    rw [hk]
    apply Outcome.fits
    rw [hsink]
    exact h

/-- One after the other; the second only if there was room for the first. -/
theorem andThen (h : Cuts n f g) (h' : Cuts n f' g') :
    Cuts n (fun page => if (f page).2 then f' (f page).1 else ((f page).1, false))
      (fun page => if (g page).2 then g' (g page).1 else ((g page).1, false)) where
  grows page := by
    obtain ⟨hfits, more, hmore⟩ := h.grows page
    obtain ⟨hfits', more', hmore'⟩ := h'.grows (g page).1
    rw [if_pos hfits]
    exact ⟨hfits', more ++ more', by rw [hmore', hmore, String.append_assoc]⟩
  outcome page hpage := by
    generalize hr : f (page.within n) = r
    generalize hr' : g page = r'
    have hfirst : Outcome n r r' := by rw [← hr, ← hr']; exact h.outcome page hpage
    cases hfirst with
    | fits hroom => exact h'.outcome _ hroom
    | @full cut whole hlt hcut =>
      -- The text goes on, behind the bytes that the buffer keeps.
      obtain ⟨hfits, more, hmore⟩ := h'.grows whole
      have hwhole : g' whole = ((g' whole).1, true) := Prod.ext rfl hfits
      simp only [Bool.false_eq_true, if_false, if_true]
      rw [hwhole]
      apply Outcome.full
      · rw [hmore, String.utf8ByteSize_append]
        omega
      · rw [hcut, hmore, Buffer.holding_append (Nat.le_of_lt hlt)]

theorem margin : Cuts n Page.margin Page.margin where
  grows page := by
    obtain ⟨sink, w, d, fresh⟩ := page
    cases fresh with
    | false => exact ⟨rfl, "", by simp [Page.margin]⟩
    | true => exact ⟨rfl, _, rfl⟩
  outcome page hpage := by
    obtain ⟨sink, w, d, fresh⟩ := page
    cases fresh with
    | false => exact .fits hpage
    | true =>
      have hput := (put (n := n) ("".pushn ' ' (d * w))).outcome ⟨sink, w, d, true⟩ hpage
      generalize hr : Page.put (Page.within n ⟨sink, w, d, true⟩) ("".pushn ' ' (d * w)) = r at hput
      have hmargin : Page.margin (Page.within n ⟨sink, w, d, true⟩) =
          ({ r.1 with atLineStart := !r.2 }, r.2) := by rw [← hr]; rfl
      rw [hmargin]
      cases hput with
      | fits hroom => exact @Outcome.fits n ⟨_, w, d, false⟩ hroom
      | full hlt hcut => exact .full hlt hcut

theorem write (text : String) : Cuts n (Page.write · text) (Page.write · text) := by
  by_cases hempty : text.isEmpty
  · have hwrite {σ : Type} [Sink σ] (page : Page σ) : page.write text = (page, true) := if_pos hempty
    simp only [hwrite]
    exact keep (fun _ => rfl) (fun _ => rfl)
  · have hwrite {σ : Type} [Sink σ] (page : Page σ) : page.write text =
        if page.margin.2 then page.margin.1.put text else (page.margin.1, false) := if_neg hempty
    simp only [hwrite]
    exact margin.andThen (put text)

theorem newline : Cuts n Page.newline Page.newline where
  grows _ := ⟨rfl, "\n", rfl⟩
  outcome page h := (put "\n").outcome { page with atLineStart := true } h

/-- Writing one level deeper. -/
theorem indented (h : Cuts n f g) :
    Cuts n (fun page => ((f page.indent).1.dedent, (f page.indent).2))
      (fun page => ((g page.indent).1.dedent, (g page.indent).2)) where
  grows page := h.grows page.indent
  outcome page hpage := by
    have hinner := h.outcome page.indent hpage
    rw [show (page.within n).indent = page.indent.within n from rfl]
    generalize f (page.indent.within n) = r at hinner ⊢
    generalize g page.indent = r' at hinner ⊢
    cases hinner with
    | @fits inner hroom => exact @Outcome.fits n inner.dedent hroom
    | full hlt hcut => exact .full hlt hcut

end Cuts

-- By recursion on the script, in step with `Step.run` and `Step.runAll`.
mutual
theorem Step.cuts_run {n : Nat} (step : Step) : Cuts n step.run step.run := by
  cases step with
  | write text => exact .write text
  | newline => exact .newline
  | indent => exact .keep (fun _ => rfl) (fun _ => rfl)
  | dedent => exact .keep (fun _ => rfl) (fun _ => rfl)
  | indented steps => exact (Step.cuts_runAll steps).indented

theorem Step.cuts_runAll {n : Nat} (steps : List Step) :
    Cuts n (Step.runAll steps) (Step.runAll steps) := by
  cases steps with
  | nil => exact .keep (fun _ => rfl) (fun _ => rfl)
  | cons step steps => exact (Step.cuts_run step).andThen (Step.cuts_runAll steps)
end

/-- A text takes all that is written and keeps what it had. -/
theorem Step.runAll_grows (steps : List Step) (page : Page String) :
    (runAll steps page).2 = true ∧ ∃ more, (runAll steps page).1.sink = page.sink ++ more :=
  (cuts_runAll (n := 0) steps).grows page

/-- What remains of a text in a buffer of capacity `n`, and the word on whether all of it fitted. -/
structure Buffer.Truncated (n : Nat) (text : String) (written : Buffer × Bool) : Prop where
  stored : written.1.stored = text.toUTF8.extract 0 (min n text.utf8ByteSize)
  size : written.1.stored.size = min n text.utf8ByteSize
  fails_iff : written.2 = false ↔ n < text.utf8ByteSize

theorem Step.renderWithin_eq (steps : List Step) (w n : Nat) :
    renderWithin steps w n =
      (Buffer.holding n (render steps w), decide ((render steps w).utf8ByteSize ≤ n)) := by
  have hrun := (cuts_runAll (n := n) steps).outcome ⟨"", w, 0, true⟩ (Nat.zero_le n)
  rw [renderWithin, render]
  rw [Page.within, Buffer.holding_empty] at hrun
  generalize runAll steps (⟨Buffer.empty n, w, 0, true⟩ : Page Buffer) = r at hrun ⊢
  generalize runAll steps (⟨"", w, 0, true⟩ : Page String) = r' at hrun ⊢
  cases hrun with
  | fits hroom => rw [decide_eq_true hroom]; rfl
  | full hlt hcut => rw [decide_eq_false (Nat.not_le_of_lt hlt)]; exact congrArg (·, false) hcut

theorem Step.truncated_renderWithin (steps : List Step) (w n : Nat) :
    Buffer.Truncated n (render steps w) (renderWithin steps w n) := by
  rw [renderWithin_eq]
  refine ⟨?_, ?_, ?_⟩
  · change (render steps w).toByteArray.extract 0 n = _
    simp only [String.toUTF8_eq_toByteArray, ByteArray.ext_iff, ByteArray.data_extract,
      Array.extract_eq_extract_right, ByteArray.size_data, String.size_toByteArray]
    omega
  · rw [Buffer.holding, ByteArray.size_extract, String.toUTF8_eq_toByteArray,
      String.size_toByteArray, Nat.sub_zero]
  · rw [decide_eq_false_iff_not, Nat.not_le]

/-- **A text that is cut off is cut off exactly.** A program written into a buffer, as C++ or in
canonical form, leaves there the first bytes of the text that it has without a limit, as many of them
as there is room for; and it tells of a failure just if that is not all of the text. -/
theorem Program.truncated_write (p : Program) (options : TargetOptions) (n : Nat) :
    Buffer.Truncated n (p.targetText options) (p.writeTarget n options) ∧
      Buffer.Truncated n p.canonicalText (p.writeCanonical n) :=
  ⟨Step.truncated_renderWithin _ _ n, Step.truncated_renderWithin _ _ n⟩

end Primer
