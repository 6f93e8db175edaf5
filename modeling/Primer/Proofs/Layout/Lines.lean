import Primer.Proofs.Layout

/-!
The lines that a script writes. What a script does is listed as its entries: the texts, each with the
depth at which it is written, and the ends of lines. The entries between two ends are a line, and the
text that a script writes is that of its lines, one below the other (`chars_eq`). Whatever the sink takes,
a script without changes of the depth of its own ends at the depth at which it starts
(`Step.depth_runAll`).
-/

namespace Primer

/-- A text and the depth at which it is written. -/
structure Stroke where
  depth : Nat
  text : String

/-- What a step adds to the lines. -/
inductive Entry where
  | stroke (s : Stroke)
  | lineEnd

namespace Step

mutual
/-- The depth after a step that starts at the depth `d`. -/
def depthAfter (d : Nat) : Step → Nat
  | write _ | newline => d
  | indent => d + 1
  | dedent => d - 1
  | indented steps => depthAfterAll (d + 1) steps - 1

def depthAfterAll (d : Nat) : List Step → Nat
  | [] => d
  | step :: steps => depthAfterAll (step.depthAfter d) steps
end

mutual
/-- The entries of a step that starts at the depth `d`. -/
def entries (d : Nat) : Step → List Entry
  | write text => [.stroke ⟨d, text⟩]
  | newline => [.lineEnd]
  | indent | dedent => []
  | indented steps => entriesAll (d + 1) steps

def entriesAll (d : Nat) : List Step → List Entry
  | [] => []
  | step :: steps => step.entries d ++ entriesAll (step.depthAfter d) steps
end

mutual
/-- The texts in a step. -/
def texts : Step → List String
  | write text => [text]
  | newline | indent | dedent => []
  | indented steps => textsAll steps

def textsAll : List Step → List String
  | [] => []
  | step :: steps => step.texts ++ textsAll steps
end

mutual
/-- Whether a step changes the depth at most for the steps within it. -/
def isLevel : Step → Bool
  | write _ | newline => true
  | indent | dedent => false
  | indented steps => areLevel steps

def areLevel : List Step → Bool
  | [] => true
  | step :: steps => step.isLevel && areLevel steps
end

end Step

/-- The strokes of each line. The last line has no end. -/
def Entry.lines : List Entry → List (List Stroke)
  | [] => [[]]
  | .stroke s :: es => (lines es).modifyHead (s :: ·)
  | .lineEnd :: es => [] :: lines es

/-- The text of a line: that of its strokes, behind the margin of the first one that is not empty. A line
of empty strokes has no margin. -/
def Stroke.line (w : Nat) (strokes : List Stroke) : List Char :=
  match strokes.find? (·.text ≠ "") with
  | none => []
  | some first => margin w first.depth ++ strokes.flatMap (·.text.toList)

/-- The lines of a script that starts on an empty page. -/
def Step.lines (steps : List Step) : List (List Stroke) := Entry.lines (Step.entriesAll 0 steps)

/-! ## What entries write -/

namespace Entry

/-- The text of the entries from a line on that is empty if `fresh` says so. -/
def chars (w : Nat) (fresh : Bool) : List Entry → List Char
  | [] => []
  | .stroke s :: es =>
    if s.text = "" then chars w fresh es
    else lead w s.depth fresh ++ (s.text.toList ++ chars w false es)
  | .lineEnd :: es => '\n' :: chars w true es

/-- Whether the line on which the entries end is empty. -/
def freshAfter (fresh : Bool) : List Entry → Bool
  | [] => fresh
  | .stroke s :: es => freshAfter (fresh && s.text = "") es
  | .lineEnd :: es => freshAfter true es

variable {w : Nat} {fresh : Bool} {es es' : List Entry}

theorem freshAfter_append :
    freshAfter fresh (es ++ es') = freshAfter (freshAfter fresh es) es' := by
  induction es generalizing fresh with
  | nil => rfl
  | cons e es ih =>
    cases e with
    | stroke s => exact ih
    | lineEnd => exact ih

theorem chars_append :
    chars w fresh (es ++ es') = chars w fresh es ++ chars w (freshAfter fresh es) es' := by
  induction es generalizing fresh with
  | nil => rfl
  | cons e es ih =>
    cases e with
    | stroke s =>
      simp only [List.cons_append, chars, freshAfter]
      split
      case isTrue hempty => simp [ih, hempty]
      case isFalse hne => simp [ih, hne]
    | lineEnd => simp only [List.cons_append, chars, freshAfter, ih]

end Entry

/-- What the entries leave of a page: they are written on it, all of them, and the depth is `d`. -/
def Page.Takes (page : Page String) (es : List Entry) (d : Nat) (result : Page String × Bool) : Prop :=
  ∃ s : String, result =
      (⟨s, page.indentWidth, d, Entry.freshAfter page.atLineStart es⟩, true) ∧
    s.toList = page.sink.toList ++ Entry.chars page.indentWidth page.atLineStart es

namespace Page.Takes

variable {page : Page String} {es es' : List Entry} {d d' : Nat}

theorem nil : page.Takes [] d ({ page with depth := d }, true) :=
  ⟨page.sink, rfl, by simp [Entry.chars]⟩

theorem write (page : Page String) (text : String) :
    page.Takes [.stroke ⟨page.depth, text⟩] page.depth (page.write text) := by
  by_cases hempty : text = ""
  · subst hempty
    have hwrite : page.write "" = (page, true) := rfl
    rw [hwrite]
    refine ⟨page.sink, ?_, ?_⟩
    · simp [Entry.freshAfter]
    · simp [Entry.chars]
  · obtain ⟨s, hwrite, hs⟩ := page.write_eq hempty
    refine ⟨s, ?_, ?_⟩
    · rw [hwrite]
      simp [Entry.freshAfter, hempty]
    · rw [hs]
      simp [Entry.chars, hempty]

theorem newline (page : Page String) : page.Takes [.lineEnd] page.depth page.newline :=
  ⟨page.sink ++ "\n", rfl, by simp [Entry.chars]⟩

theorem append {result : Page String × Bool} (h : page.Takes es d result)
    (h' : result.1.Takes es' d' result') : page.Takes (es ++ es') d' result' := by
  obtain ⟨s, rfl, hs⟩ := h
  obtain ⟨s', rfl, hs'⟩ := h'
  refine ⟨s', ?_, ?_⟩
  · rw [Entry.freshAfter_append]
  · rw [hs', hs, Entry.chars_append, List.append_assoc]

theorem fits {result : Page String × Bool} (h : page.Takes es d result) : result.2 = true := by
  obtain ⟨s, rfl, -⟩ := h
  rfl

theorem depth {result : Page String × Bool} (h : page.Takes es d result) : result.1.depth = d := by
  obtain ⟨s, rfl, -⟩ := h
  rfl

end Page.Takes

-- By recursion on the script, in step with `Step.run` and `Step.runAll`.
mutual
theorem Step.takes_run (step : Step) (page : Page String) :
    page.Takes (step.entries page.depth) (step.depthAfter page.depth) (step.run page) := by
  cases step with
  | write text => exact .write page text
  | newline => exact .newline page
  | indent => exact .nil
  | dedent => exact .nil
  | indented steps =>
    obtain ⟨s, hrun, hs⟩ := Step.takes_runAll steps page.indent
    refine ⟨s, ?_, hs⟩
    rw [Step.run, hrun]
    rfl

theorem Step.takes_runAll (steps : List Step) (page : Page String) :
    page.Takes (Step.entriesAll page.depth steps) (Step.depthAfterAll page.depth steps)
      (Step.runAll steps page) := by
  cases steps with
  | nil => exact .nil
  | cons step steps =>
    have hstep := Step.takes_run step page
    have hsteps := Step.takes_runAll steps (step.run page).1
    rw [hstep.depth] at hsteps
    have hrun : Step.runAll (step :: steps) page = Step.runAll steps (step.run page).1 := by
      rw [Step.runAll]
      exact if_pos hstep.fits
    rw [hrun]
    exact hstep.append hsteps
end

/-! ## Lines -/

namespace Entry

variable {w : Nat}

theorem intercalate_append_cons (cs ds : List Char) (ls : List (List Char)) :
    ['\n'].intercalate ((cs ++ ds) :: ls) = cs ++ ['\n'].intercalate (ds :: ls) := by
  cases ls with
  | nil => simp
  | cons l ls => simp

/-- The entries write their lines one below the other. On a line that is not empty any more, what the
first line adds to it has no margin. -/
theorem exists_lines (es : List Entry) : ∃ first others, lines es = first :: others ∧
    chars w true es = ['\n'].intercalate (Stroke.line w first :: others.map (Stroke.line w)) ∧
    chars w false es =
      ['\n'].intercalate (first.flatMap (·.text.toList) :: others.map (Stroke.line w)) := by
  induction es with
  | nil => exact ⟨[], [], rfl, rfl, rfl⟩
  | cons e es ih =>
    obtain ⟨first, others, hlines, hfresh, hrest⟩ := ih
    cases e with
    | lineEnd =>
      refine ⟨[], lines es, rfl, ?_, ?_⟩ <;>
        simp [chars, hfresh, hlines, Stroke.line]
    | stroke s =>
      refine ⟨s :: first, others, by rw [lines, hlines]; rfl, ?_⟩
      by_cases hempty : s.text = ""
      · have hline : Stroke.line w (s :: first) = Stroke.line w first := by
          simp [Stroke.line, hempty]
        simp [chars, hempty, hfresh, hrest, hline]
      · have hline : Stroke.line w (s :: first) =
            margin w s.depth ++ (s.text.toList ++ first.flatMap (·.text.toList)) := by
          simp [Stroke.line, hempty]
        rw [hline, List.flatMap_cons]
        simp only [chars, hempty, if_false, hrest, intercalate_append_cons, lead, if_true,
          Bool.false_eq_true, List.nil_append, and_self]

theorem chars_eq (es : List Entry) :
    chars w true es = ['\n'].intercalate ((lines es).map (Stroke.line w)) := by
  obtain ⟨first, others, hlines, hfresh, -⟩ := exists_lines (w := w) es
  rw [hfresh, hlines, List.map_cons]

theorem lines_ne_nil (es : List Entry) : lines es ≠ [] := by
  obtain ⟨first, others, hlines, -⟩ := exists_lines (w := 0) es
  rw [hlines]
  exact List.cons_ne_nil _ _

theorem mem_of_mem_lines {es : List Entry} {line : List Stroke} (h : line ∈ lines es) :
    ∀ s ∈ line, .stroke s ∈ es := by
  induction es generalizing line with
  | nil =>
    rw [List.mem_singleton.1 h]
    exact fun s hs => absurd hs List.not_mem_nil
  | cons e es ih =>
    cases e with
    | lineEnd =>
      rcases List.mem_cons.1 h with rfl | h
      · exact fun s hs => absurd hs List.not_mem_nil
      · exact fun s hs => List.mem_cons_of_mem _ (ih h s hs)
    | stroke t =>
      obtain ⟨first, others, hlines⟩ := List.exists_cons_of_ne_nil (lines_ne_nil es)
      rw [lines, hlines, List.modifyHead_cons] at h
      rw [hlines] at ih
      rcases List.mem_cons.1 h with rfl | h
      · refine List.forall_mem_cons.2 ⟨List.mem_cons_self, fun s hs => ?_⟩
        exact List.mem_cons_of_mem _ (ih List.mem_cons_self s hs)
      · exact fun s hs => List.mem_cons_of_mem _ (ih (List.mem_cons_of_mem _ h) s hs)

end Entry

mutual
theorem Step.mem_texts_of_entries {step : Step} {d : Nat} {s : Stroke}
    (h : .stroke s ∈ step.entries d) : s.text ∈ step.texts := by
  cases step with
  | write text =>
    cases List.mem_singleton.1 h
    exact List.mem_singleton_self _
  | newline => cases List.mem_singleton.1 h
  | indent => cases h
  | dedent => cases h
  | indented steps => exact Step.mem_textsAll_of_entriesAll h

theorem Step.mem_textsAll_of_entriesAll {steps : List Step} {d : Nat} {s : Stroke}
    (h : .stroke s ∈ Step.entriesAll d steps) : s.text ∈ Step.textsAll steps := by
  cases steps with
  | nil => cases h
  | cons step steps =>
    rcases List.mem_append.1 h with h | h
    · exact List.mem_append_left _ (Step.mem_texts_of_entries h)
    · exact List.mem_append_right _ (Step.mem_textsAll_of_entriesAll h)
end

theorem Stroke.newline_not_mem_line {w : Nat} {strokes : List Stroke}
    (h : ∀ s ∈ strokes, '\n' ∉ s.text.toList) : '\n' ∉ Stroke.line w strokes := by
  rw [Stroke.line]
  split
  · exact List.not_mem_nil
  · intro hend
    rcases List.mem_append.1 hend with hmargin | htext
    · cases List.eq_of_mem_replicate hmargin
    · obtain ⟨s, hs, hend⟩ := List.mem_flatMap.1 htext
      exact h s hs hend

theorem Step.toList_render (steps : List Step) (w : Nat) :
    (render steps w).toList = ['\n'].intercalate ((lines steps).map (Stroke.line w)) := by
  obtain ⟨s, hrun, hs⟩ := takes_runAll steps ⟨"", w, 0, true⟩
  rw [render, hrun, hs, Entry.chars_eq]
  rfl

theorem Step.splitOn_render (w : Nat) {steps : List Step}
    (h : ∀ t ∈ textsAll steps, '\n' ∉ t.toList) :
    (render steps w).toList.splitOn '\n' = (lines steps).map (Stroke.line w) := by
  rw [toList_render]
  apply List.splitOn_intercalate
  · intro l hl
    obtain ⟨strokes, hstrokes, rfl⟩ := List.mem_map.1 hl
    refine Stroke.newline_not_mem_line fun s hs => h s.text ?_
    exact mem_textsAll_of_entriesAll (Entry.mem_of_mem_lines hstrokes s hs)
  · rw [ne_eq, List.map_eq_nil_iff]
    exact Entry.lines_ne_nil _

/-! ## Depth -/

section
variable [Sink σ]

theorem Page.depth_margin (page : Page σ) : page.margin.1.depth = page.depth := by
  rw [margin]
  split <;> rfl

theorem Page.depth_write (page : Page σ) (text : String) : (page.write text).1.depth = page.depth := by
  rw [write]
  split
  · rfl
  · dsimp only
    split
    · exact page.depth_margin
    · exact page.depth_margin

-- By recursion on the script; a step that the sink refuses leaves the depth as any other does.
mutual
theorem Step.depth_run {step : Step} (h : step.isLevel = true) (page : Page σ) :
    (step.run page).1.depth = page.depth := by
  cases step with
  | write text => exact page.depth_write text
  | newline => rfl
  | indent => cases h
  | dedent => cases h
  | indented steps =>
    have hinner : (Step.runAll steps page.indent).1.depth = page.indent.depth :=
      Step.depth_runAll h page.indent
    rw [Step.run]
    dsimp only [Page.dedent]
    rw [hinner]
    rfl

theorem Step.depth_runAll {steps : List Step} (h : Step.areLevel steps = true) (page : Page σ) :
    (Step.runAll steps page).1.depth = page.depth := by
  cases steps with
  | nil => rfl
  | cons step steps =>
    rw [Step.areLevel, Bool.and_eq_true] at h
    have hstep := Step.depth_run h.1 page
    rw [Step.runAll]
    dsimp only
    split
    · rw [Step.depth_runAll h.2, hstep]
    · exact hstep
end

end

namespace Step

/-- **Lines are laid out exactly.** If the texts of a script have no line ends in them, the lines of what it
writes are those of the script: a line of empty texts is empty, and any other one has its texts behind the
margin of the depth at which the first of them was written that is not empty. And steps one level deeper
end at the depth at which they started, also where the sink refuses a part of them, if neither they nor the
steps within them change the depth otherwise. Margins have no bound here: with machine words it is so as long
as the product of depth and width fits in one. -/
theorem layout_exact (steps : List Step) (w : Nat) :
    ((∀ t ∈ textsAll steps, '\n' ∉ t.toList) →
      (render steps w).toList.splitOn '\n' = (lines steps).map (Stroke.line w)) ∧
    ∀ {σ : Type} [Sink σ] (page : Page σ), areLevel steps = true →
      ((indented steps).run page).1.depth = page.depth := by
  refine ⟨splitOn_render w, fun page h => ?_⟩
  have hlevel : (indented steps).isLevel = true := h
  exact depth_run hlevel page

/-- The depth changes in the middle of a line, and two lines have empty texts at their starts. -/
def shiftedSteps : List Step :=
  [write "", indent, write "a", indented [write "b", newline, write "", newline, write "", write "c"],
    dedent, newline, dedent, write "d"]

/-- The second line is one level below the first. -/
def nestedSteps : List Step := line "ab" ++ [indented (write "" :: line "cdef")] ++ line "g"

/-- The buffer is full in the middle of the second line. -/
theorem layout_exact_shifted :
    ((render shiftedSteps 2).toList.splitOn '\n').map String.ofList = ["  ab", "", "    c", "d"] ∧
    ((indented nestedSteps).run (⟨Buffer.empty 13, 1, 3, true⟩ : Page Buffer)).2 = false ∧
    ((indented nestedSteps).run (⟨Buffer.empty 13, 1, 3, true⟩ : Page Buffer)).1.depth = 3 := by
  have htexts : ∀ t ∈ textsAll shiftedSteps, '\n' ∉ t.toList := by decide
  refine ⟨?_, by decide +kernel, (layout_exact nestedSteps 1).2 _ rfl⟩
  rw [(layout_exact shiftedSteps 2).1 htexts]
  rfl

/-- A change of the depth within nested steps stays, though the steps around them make none of their own. -/
theorem indented_depth_shifts :
    (∀ s ∈ [indented [indent]], s ≠ indent ∧ s ≠ dedent) ∧
    ((indented [indented [indent]]).run (⟨"", 2, 0, true⟩ : Page String)).1.depth = 1 ∧
    render (indented [indented [indent]] :: line "x") 2 = "  x\n" := by
  exact ⟨by simp, rfl, rfl⟩

end Step

end Primer
