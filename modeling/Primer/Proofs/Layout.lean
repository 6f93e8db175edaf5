import Primer.Layout

/-!
What steps write on a page that is a text. `Lays w d fresh steps text` says that at depth `d`, with
`w` spaces for each level, the steps add the text to the page and end with a line; `fresh` tells
whether the line on which they start is still empty. The rules follow the ways in which scripts are
put together.
-/

namespace Primer

/-- The spaces at the start of a line of that depth. -/
def margin (w d : Nat) : List Char := List.replicate (d * w) ' '

@[simp] theorem margin_zero (w : Nat) : margin w 0 = [] := by rw [margin, Nat.zero_mul]; rfl

/-- The spaces that the first text on a line brings with it. -/
def lead (w d : Nat) (fresh : Bool) : List Char := if fresh then margin w d else []

/-- The steps write the text and end the last line of it. -/
def Lays (w d : Nat) (fresh : Bool) (steps : List Step) (text : List Char) : Prop :=
  ∀ s : String, ∃ s' : String,
    Step.runAll steps (⟨s, w, d, fresh⟩ : Page String) = (⟨s', w, d, true⟩, true) ∧
      s'.toList = s.toList ++ text

theorem Step.runAll_append [Sink σ] (xs ys : List Step) (page : Page σ) :
    runAll (xs ++ ys) page =
      if (runAll xs page).2 then runAll ys (runAll xs page).1 else runAll xs page := by
  induction xs generalizing page with
  | nil => simp [runAll]
  | cons x xs ih =>
    rw [List.cons_append, runAll, runAll]
    rcases x.run page with ⟨page', fits⟩
    cases fits with
    | true => exact ih page'
    | false => rfl

theorem toList_pushn (n : Nat) : ("".pushn ' ' n).toList = List.replicate n ' ' := by
  rw [String.pushn]
  induction n with
  | zero => rfl
  | succ n ih => rw [Nat.repeat, String.toList_push, ih, List.replicate_succ']

theorem Page.write_eq (page : Page String) {text : String} (h : text ≠ "") :
    ∃ s, page.write text = ({ page with sink := s, atLineStart := false }, true) ∧
      s.toList =
        page.sink.toList ++ (lead page.indentWidth page.depth page.atLineStart ++ text.toList) := by
  obtain ⟨sink, w, d, fresh⟩ := page
  have hne : text.isEmpty = false := by simpa using h
  cases fresh with
  | false =>
    refine ⟨sink ++ text, ?_, ?_⟩
    · simp [write, margin, put, Sink.put, hne]
    · simp [lead]
  | true =>
    refine ⟨sink ++ "".pushn ' ' (d * w) ++ text, ?_, ?_⟩
    · simp [write, margin, put, Sink.put, hne]
    · simp [lead, Primer.margin, toList_pushn]

namespace Lays

variable {w d : Nat} {fresh : Bool} {steps : List Step} {text : List Char}

theorem nil : Lays w d true [] [] := fun s => ⟨s, rfl, by simp⟩

theorem append {steps' : List Step} {text' : List Char} (h : Lays w d fresh steps text)
    (h' : Lays w d true steps' text') : Lays w d fresh (steps ++ steps') (text ++ text') := by
  intro s
  obtain ⟨s₁, hrun₁, hs₁⟩ := h s
  obtain ⟨s₂, hrun₂, hs₂⟩ := h' s₁
  refine ⟨s₂, ?_, ?_⟩
  · rw [Step.runAll_append, hrun₁, if_pos rfl, hrun₂]
  · rw [hs₂, hs₁, List.append_assoc]

theorem newline : Lays w d fresh [.newline] ['\n'] := by
  intro s
  refine ⟨s ++ "\n", ?_, ?_⟩
  · simp [Step.runAll, Step.run, Page.newline, Page.put, Sink.put]
  · simp

/-- A text that is not empty, and what follows it on the same line. -/
theorem write {t : String} (ht : t ≠ "") (h : Lays w d false steps text) :
    Lays w d fresh (.write t :: steps) (lead w d fresh ++ (t.toList ++ text)) := by
  intro s
  obtain ⟨s₁, hwrite, hs₁⟩ := Page.write_eq ⟨s, w, d, fresh⟩ ht
  obtain ⟨s₂, hrun, hs₂⟩ := h s₁
  refine ⟨s₂, ?_, ?_⟩
  · rw [Step.runAll, Step.run, hwrite]
    exact hrun
  · rw [hs₂, hs₁]
    simp

theorem line {t : String} (ht : t ≠ "") :
    Lays w d fresh (Step.line t) (lead w d fresh ++ (t.toList ++ ['\n'])) :=
  .write ht .newline

/-- A line without text has no margin. -/
theorem line_empty : Lays w d fresh (Step.line "") ['\n'] := by
  have hend : Lays w d fresh [.newline] ['\n'] := newline
  exact hend

/-- Steps one level deeper. -/
theorem indented (h : Lays w (d + 1) true steps text) : Lays w d true [.indented steps] text := by
  intro s
  obtain ⟨s', hrun, hs'⟩ := h s
  refine ⟨s', ?_, hs'⟩
  rw [Step.runAll, Step.run, Page.indent, hrun]
  rfl

theorem flatMap {l : List α} {f : α → List Step} {g : α → List Char}
    (h : ∀ a ∈ l, Lays w d true (f a) (g a)) : Lays w d true (l.flatMap f) (l.flatMap g) := by
  induction l with
  | nil => exact nil
  | cons a l ih =>
    have hrest := ih fun b hb => h b (List.mem_cons_of_mem a hb)
    exact (h a List.mem_cons_self).append hrest

theorem render_eq (h : Lays w 0 true steps text) : (Step.render steps w).toList = text := by
  obtain ⟨s, hrun, hs⟩ := h ""
  rw [Step.render, hrun, hs]
  simp

end Lays

end Primer
