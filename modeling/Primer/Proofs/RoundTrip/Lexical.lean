import Primer.Canonical
import Primer.Grammar.Literal
import Primer.Proofs.Binary64
import Primer.Proofs.Parser.Reading
import Primer.Proofs.Syntax.Legal

/-!
Reading what stands in canonical text: space, line ends, words, names and literals. A text is solid if
neither space nor a comment stands at its start, and apart if no word goes on there. `strip` leaves out
the space and line ends at the start of a text, as a line end does when it is read.
-/

namespace Primer

/-- Neither space nor a comment starts here. -/
def Solid (cs : List Char) : Prop := ∀ c ∈ cs.head?, isSpace c = false ∧ c ≠ '/'

/-- No word goes on here. -/
def Apart (cs : List Char) : Prop := ∀ c ∈ cs.head?, isNameChar c = false

/-- The word at the start of the text, which may be empty. -/
def leadingWord (cs : List Char) : List Char := cs.takeWhile isNameChar

/-- Whether the text is a word. -/
def isWord (w : String) : Bool := w != "" && w.toList.all isNameChar

/-- The text without the space and line ends at its start. -/
def strip (cs : List Char) : List Char := cs.dropWhile isSpace

theorem Solid.nil : Solid [] := by
  intro c hc
  cases hc

theorem Solid.of_cons {c : Char} {cs : List Char} (hs : isSpace c = false) (hc : c ≠ '/') :
    Solid (c :: cs) := by
  intro d hd
  cases hd
  exact ⟨hs, hc⟩

theorem Apart.of_cons {c : Char} {cs : List Char} (h : isNameChar c = false) : Apart (c :: cs) := by
  intro d hd
  cases hd
  exact h

theorem Apart.nil : Apart [] := fun _ h => nomatch h

theorem Apart.blank {cs : List Char} : Apart (' ' :: cs) := .of_cons (by decide)

theorem Apart.newline {cs : List Char} : Apart ('\n' :: cs) := .of_cons (by decide)

theorem isNameChar_of_isWord {w : String} (h : isWord w = true) :
    ∀ c ∈ w.toList, isNameChar c = true := by
  rw [isWord, Bool.and_eq_true, List.all_eq_true] at h
  exact h.2

theorem leadingWord_append {w : String} {rest : List Char} (hw : isWord w = true)
    (hrest : Apart rest) : leadingWord (w.toList ++ rest) = w.toList :=
  Parser.takeWhile_append (isNameChar_of_isWord hw) hrest

theorem leadingWord_cons {c : Char} {cs : List Char} (h : isNameChar c = false) :
    leadingWord (c :: cs) = [] := by
  rw [leadingWord, List.takeWhile_cons_of_neg (by simp [h])]

/-- Keywords have the form of names. -/
theorem exists_cons_of_isKeyword {w : String} (h : isKeyword w = true) : ∃ c tail,
    w.toList = c :: tail ∧ isNameStart c = true ∧ ∀ d ∈ tail, isNameChar d = true := by
  have hall : (keywords.all fun w =>
      w.toList.head?.any isNameStart && w.toList.tail.all isNameChar) = true := by decide
  have hw := List.all_eq_true.1 hall w (by simpa [isKeyword] using h)
  rw [Bool.and_eq_true, List.all_eq_true] at hw
  cases hs : w.toList with
  | nil => simp [hs] at hw
  | cons c tail =>
    rw [hs] at hw
    exact ⟨c, tail, rfl, hw⟩

/-- A word starts with one of its characters, which is neither space nor the start of a comment. -/
theorem solid_of_isWord {w : String} (h : isWord w = true) (rest : List Char) :
    Solid (w.toList ++ rest) := by
  have hchars := isNameChar_of_isWord h
  cases hw : w.toList with
  | nil =>
    rw [String.toList_eq_nil_iff.1 hw] at h
    cases h
  | cons c tail =>
    have hc := hchars c (by rw [hw]; exact List.mem_cons_self)
    have hne {d : Char} (hd : isNameChar d = false) : c ≠ d := by
      rintro rfl
      rw [hc] at hd
      cases hd
    refine .of_cons ?_ (hne (by decide))
    simp only [isSpace, Bool.or_eq_false_iff, beq_eq_false_iff_ne]
    exact ⟨⟨⟨hne (by decide), hne (by decide)⟩, hne (by decide)⟩, hne (by decide)⟩

theorem strip_of_solid {cs : List Char} (h : Solid cs) : strip cs = cs := by
  cases cs with
  | nil => rfl
  | cons c cs => rw [strip, List.dropWhile_cons_of_neg]; simp [(h c rfl).1]

theorem strip_append_of_space {ws cs : List Char} (h : ∀ c ∈ ws, isSpace c = true) :
    strip (ws ++ cs) = strip cs := List.dropWhile_append_of_pos h

theorem byteCount_strip_lt {pre : List Char} (h : pre ≠ []) (cs : List Char) :
    byteCount (strip cs) < byteCount (pre ++ cs) := by
  have hsplit : byteCount cs = byteCount (cs.takeWhile isSpace) + byteCount (strip cs) := by
    rw [strip, ← byteCount_append, List.takeWhile_append_dropWhile]
  have hlt := byteCount_lt_of_append h cs
  omega

theorem map_eq_map_of_forall₂ {f : β → γ} {g : α → γ} {l : List α} {l' : List β}
    (h : List.Forall₂ (fun a b => f b = g a) l l') : l'.map f = l.map g := by
  induction h with
  | nil => rfl
  | cons hab _ ih => rw [List.map_cons, List.map_cons, hab, ih]

theorem intercalate_cons (sep a : List Char) (l : List (List Char)) :
    sep.intercalate (a :: l) = a ++ l.flatMap (sep ++ ·) := by
  induction l generalizing a with
  | nil => simp
  | cons b l ih =>
    rw [List.intercalate_cons_cons, ih, List.flatMap_cons, List.append_assoc, List.append_assoc]

theorem isSpace_of_isInlineSpace {c : Char} (h : isSpace c = false) : isInlineSpace c = false := by
  simp only [isSpace, isInlineSpace, Bool.or_eq_false_iff] at h ⊢
  exact ⟨⟨h.1.1.1, h.1.1.2⟩, h.1.2⟩

theorem LegalName.exists_cons {s : String} (h : LegalName s) : ∃ c tail, s.toList = c :: tail ∧
    isNameStart c = true ∧ ∀ d ∈ tail, isNameChar d = true := by
  obtain ⟨c, hc, hstart⟩ := h.start
  cases hs : s.toList with
  | nil => rw [hs] at hc; cases hc
  | cons d tail =>
    rw [hs] at hc
    cases hc
    exact ⟨c, tail, rfl, hstart, fun e he => h.chars e (hs ▸ List.mem_cons_of_mem c he)⟩

/-- The word that starts with a name is the name. -/
theorem LegalName.leadingWord_eq {s : String} {rest : List Char} (h : LegalName s)
    (hrest : Apart rest) :
    leadingWord (s.toList ++ rest) = s.toList :=
  Parser.takeWhile_append h.chars hrest

namespace Grammar

open Primer.Parser

variable {cs rest : List Char}

/-! ## Space -/

theorem misses_blockComment (h : cs.head? ≠ some '/') : Misses blockComment cs :=
  .bind (.text_of_head (c := '/') (by decide) h)

theorem misses_lineComment (h : cs.head? ≠ some '/') : Misses lineComment cs :=
  .bind (.text_of_head (c := '/') (by decide) h)

/-- A run of space is read by one step, after which nothing more is space. -/
theorem reads_run {t : Char → Bool} {comment : Parser Unit} (run : List Char)
    (hrun : ∀ c ∈ run, t c = true) (hrest : ∀ c ∈ rest.head?, t c = false)
    (hcomment : Misses comment rest) :
    Reads (discard (many (discard (takeWhile1 t) <|> comment))) (run ++ rest) rest
      fun _ => True := by
  have hend : Misses (discard (takeWhile1 t) <|> comment) rest :=
    .orElse (.discard (.takeWhile1 hrest)) hcomment
  by_cases hne : run = []
  · subst hne
    exact .discard (.many_nil hend)
  · have hread := (Reads.takeWhile1 hne hrun hrest).discard.orElse (q := comment)
    exact .discard (.many_one hread (byteCount_lt_of_append hne rest) hend)

theorem reads_space (run : List Char) (hrun : ∀ c ∈ run, isInlineSpace c = true)
    (hrest : ∀ c ∈ rest.head?, isInlineSpace c = false ∧ c ≠ '/') :
    Reads space (run ++ rest) rest fun _ => True :=
  reads_run run hrun (fun c hc => (hrest c hc).1)
    (misses_blockComment fun h => (hrest '/' h).2 rfl)

theorem reads_space_nil (h : Solid cs) : Reads space cs cs fun _ => True :=
  reads_space [] (by simp) fun c hc => ⟨isSpace_of_isInlineSpace (h c hc).1, (h c hc).2⟩

theorem reads_space_newline : Reads space ('\n' :: cs) ('\n' :: cs) fun _ => True :=
  reads_space [] (by simp) fun c hc => by cases hc; decide

theorem reads_space_blank (h : Solid cs) : Reads space (' ' :: cs) cs fun _ => True :=
  reads_space [' '] (by simp [isInlineSpace]) fun c hc => ⟨isSpace_of_isInlineSpace (h c hc).1, (h c hc).2⟩

theorem reads_blank (h : Solid (strip cs)) : Reads blank cs (strip cs) fun _ => True := by
  have hslash : (strip cs).head? ≠ some '/' := fun hc => (h '/' hc).2 rfl
  have hread := reads_run _ (List.all_eq_true.1 (List.all_takeWhile (l := cs)))
    (fun c hc => (h c hc).1)
    (.orElse (misses_lineComment hslash) (misses_blockComment hslash))
  rw [strip, List.takeWhile_append_dropWhile] at hread
  exact hread

/-- A line end takes the blank lines and the margin that follow. -/
theorem reads_lineEnd (h : Solid (strip cs)) :
    Reads lineEnd ('\n' :: cs) (strip cs) fun _ => True := by
  refine .bind reads_space_newline fun _ _ => ?_
  refine .bind (.discard (.maybe_none (misses_lineComment (by simp)))) fun _ _ => ?_
  exact .bind (.orElse (.discard .char)) fun _ _ => reads_blank h

section
variable {p : Parser α} {Q : α → Prop}

theorem reads_afterSpace_blank (hcs : Solid cs) (h : Reads p cs rest Q) :
    Reads (afterSpace p) (' ' :: cs) rest Q :=
  .bind (reads_space_blank hcs) fun _ _ => h

theorem reads_afterSpace (hcs : Solid cs) (h : Reads p cs rest Q) :
    Reads (afterSpace p) cs rest Q :=
  .bind (reads_space_nil hcs) fun _ _ => h

end

/-! ## Words and names -/

theorem reads_word {w : String} (h : cs = w.toList ++ rest) (hrest : Apart rest) :
    Reads (word w) cs rest fun _ => True :=
  .bind (.text h) fun _ _ => .notFollowedBy (.satisfy hrest)

theorem reads_blank_word {w : String} (hw : isWord w = true) (hrest : Apart rest) :
    Reads (afterSpace (word w)) (' ' :: (w.toList ++ rest)) rest fun _ => True :=
  reads_afterSpace_blank (solid_of_isWord hw rest) (reads_word rfl hrest)

/-- A word is not read where another one stands. -/
theorem misses_word {w : String} (h : leadingWord cs ≠ w.toList) (hw : isWord w = true) :
    Misses (word w) cs := by
  by_cases hpre : w.toList <+: cs
  · obtain ⟨tail, rfl⟩ := hpre
    refine .bind_of_reads (.text rfl) fun _ _ => ?_
    cases tail with
    | nil => exact absurd (leadingWord_append hw .nil) h
    | cons c tail =>
      by_cases hc : isNameChar c = true
      · exact .notFollowedBy (.satisfy hc)
      · have hapart : Apart (c :: tail) := .of_cons (by simpa using hc)
        exact absurd (leadingWord_append hw hapart) h
  · exact .bind (.text hpre)

theorem misses_word_of_head {w : String} {c : Char} (hw : w.toList.head? = some c)
    (h : cs.head? ≠ some c) : Misses (word w) cs :=
  .bind (.text_of_head hw h)

theorem reads_label {s : String} {c : Char} {tail : List Char} (hs : s.toList = c :: tail)
    (hc : isNameStart c = true) (htail : ∀ d ∈ tail, isNameChar d = true) (hrest : Apart rest) :
    Reads label (s.toList ++ rest) rest (· = s) := by
  rw [hs, List.cons_append]
  refine .bind (.satisfy hc) fun a ha => .bind (.takeWhile htail hrest) fun as has => .pure ?_
  rw [ha, has, ← hs, String.ofList_toList]

theorem reads_ident_at {s : String} (h : LegalName s) (hrest : Apart rest) :
    Reads ident (s.toList ++ rest) rest (· = ⟨⟨byteCount (s.toList ++ rest)⟩, s⟩) := by
  obtain ⟨c, tail, hs, hc, htail⟩ := h.exists_cons
  refine .bind .here fun start hstart => .bind (reads_label hs hc htail hrest) fun name hname => ?_
  subst hstart hname
  rw [if_neg (by simp [h.notKeyword]), if_neg (Nat.not_lt.2 h.length_le)]
  exact .pure rfl

theorem reads_ident {s : String} (h : LegalName s) (hrest : Apart rest) :
    Reads ident (s.toList ++ rest) rest (·.name = s) :=
  (reads_ident_at h hrest).mono fun _ hx => by rw [hx]

theorem misses_ident_of_head (h : ∀ c ∈ cs.head?, isNameStart c = false) : Misses ident cs := by
  refine .bind_of_reads .here fun start _ => ?_
  exact .bind (.bind (.satisfy h))

/-- A word that stands in the list of keywords is no name. -/
theorem misses_ident_of_keyword {w : String} (hw : isKeyword w = true) (hrest : Apart rest) :
    Misses ident (w.toList ++ rest) := by
  obtain ⟨c, tail, hs, hc, htail⟩ := exists_cons_of_isKeyword hw
  refine .bind_of_reads .here fun start _ => ?_
  refine .bind_of_reads (reads_label hs hc htail hrest) fun name hname => ?_
  subst hname
  rw [if_pos hw]
  exact .missAt

/-! ## Lists -/

section
variable {p : Parser α} {f : γ → List Char} {Q : γ → α → Prop} {l : List γ}

theorem reads_spaced (hcs : Solid cs) (hrest : Solid rest) {Q : α → Prop} (h : Reads p cs rest Q) :
    Reads (spaced p) cs rest Q := by
  refine .bind (reads_space_nil hcs) fun _ _ => .bind h fun a ha => ?_
  exact .bind (reads_space_nil hrest) fun _ _ => .pure ha

/-- Up to the end of the text nothing is left over. -/
theorem reads_whole (hcs : Solid cs) {Q : α → Prop} (h : Reads p cs [] Q) :
    Reads (do let a ← spaced p; atEnd; return a) cs [] Q :=
  .bind (reads_spaced hcs .nil h) fun _ ha => .bind .atEnd fun _ _ => .pure ha

theorem reads_spaced_blank (hcs : Solid cs) (hrest : Solid rest) {Q : α → Prop}
    (h : Reads p cs rest Q) : Reads (spaced p) (' ' :: cs) rest Q := by
  refine .bind (reads_space_blank hcs) fun _ _ => .bind h fun a ha => ?_
  exact .bind (reads_space_nil hrest) fun _ _ => .pure ha

/-- What stands between the parentheses of a call or a signature, for items that read back before a
comma and before the closing parenthesis. -/
theorem reads_listed (hstart : ∀ x ∈ l, ∃ c tail, f x = c :: tail ∧ Solid [c] ∧ c ≠ ')')
    (hread : ∀ x ∈ l, ∀ c tail, c = ',' ∨ c = ')' →
      Reads p (f x ++ c :: tail) (c :: tail) (Q x)) :
    Reads ((do discard <| lookAhead (afterSpace (char ')')); return []) <|>
        sepBy1 (spaced p) (char ','))
      (", ".toList.intercalate (l.map f) ++ ')' :: rest) (')' :: rest) (List.Forall₂ Q l) := by
  cases l with
  | nil =>
    refine .orElse (.bind (.discard (.lookAhead (reads_afterSpace ?_ .char))) fun _ _ => ?_)
    · exact .of_cons (by decide) (by decide)
    · exact .pure .nil
  | cons x l =>
    let T (l : List γ) : List Char := l.flatMap (fun y => ", ".toList ++ f y) ++ ')' :: rest
    have hT (l : List γ) : Solid (T l) ∧ ∃ c tail, T l = c :: tail ∧ (c = ',' ∨ c = ')') := by
      cases l with
      | nil => exact ⟨.of_cons (by decide) (by decide), ')', _, rfl, .inr rfl⟩
      | cons y l => exact ⟨.of_cons (by decide) (by decide), ',', _, rfl, .inl rfl⟩
    have hitem {y : γ} (hy : y ∈ x :: l) (after : List γ) :
        Reads p (f y ++ T after) (T after) (Q y) ∧ Solid (f y ++ T after) := by
      obtain ⟨-, c, tail, htail, hc⟩ := hT after
      obtain ⟨d, ds, hd, hsolid, -⟩ := hstart y hy
      refine ⟨htail ▸ hread y hy c tail hc, ?_⟩
      rw [hd]
      exact .of_cons (hsolid d rfl).1 (hsolid d rfl).2
    have hmiss : Misses (lookAhead (afterSpace (char ')'))) (f x ++ T l) := by
      obtain ⟨c, tail, hx, -, hc⟩ := hstart x List.mem_cons_self
      refine .lookAhead (.bind_of_reads (reads_space_nil (hitem List.mem_cons_self l).2) fun _ _ => ?_)
      rw [hx]
      exact .char (by simpa using hc)
    have htext : ", ".toList.intercalate ((x :: l).map f) ++ ')' :: rest = f x ++ T l := by
      rw [List.map_cons, intercalate_cons, List.flatMap_map, List.append_assoc]
    rw [htext]
    refine hmiss.discard.bind.orElse_reads ?_
    refine .sepBy1 (T := T) (reads_spaced (hitem List.mem_cons_self l).2 (hT l).1
      (hitem List.mem_cons_self l).1) ?_ (.char (by simp [T]))
    intro y after hsuffix
    have hy : y ∈ x :: l := List.mem_cons_of_mem x (hsuffix.subset List.mem_cons_self)
    have hcons : T (y :: after) = ',' :: ' ' :: (f y ++ T after) := by
      simp [T]
    rw [hcons]
    refine ⟨.bind .char fun _ _ => ?_, ?_⟩
    · exact reads_spaced_blank (hitem hy after).2 (hT after).1 (hitem hy after).1
    · exact byteCount_lt_of_append (by simp : ',' :: ' ' :: f y ≠ []) (T after)

end

/-! ## Lines -/

section
variable {s g : γ → List Char} {Q : γ → α → Prop} {P : List Char → Prop} {l : List γ}
variable (after : List Char)

/-- Items that stand on lines of their own, each after some space `s x` that is read with the item
before it. `P` is what holds where an item or the end of the list stands. -/
theorem reads_lines_with {p : List α → Parser α} (hs : ∀ x ∈ l, ∀ c ∈ s x, isSpace c = true)
    (hP : ∀ cs, P cs → Solid cs) (hg : ∀ x ∈ l, g x ≠ [] ∧ ∀ rest, P (g x ++ rest))
    (hread : ∀ before x rest earlier, before ++ [x] <+: l → List.Forall₂ Q before earlier.reverse →
      P (strip rest) → Reads (p earlier) (g x ++ rest) (strip rest) (Q x))
    (hafter : P (strip after)) (hmiss : ∀ earlier, Misses (p earlier) (strip after)) :
    P (strip (l.flatMap (fun x => s x ++ g x) ++ after)) ∧
      Reads (manyWith p) (strip (l.flatMap (fun x => s x ++ g x) ++ after)) (strip after)
        (List.Forall₂ Q l) := by
  let T (l : List γ) : List Char := strip (l.flatMap (fun x => s x ++ g x) ++ after)
  have hcons {x : γ} (hx : x ∈ l) (l' : List γ) :
      T (x :: l') = g x ++ (l'.flatMap (fun x => s x ++ g x) ++ after) := by
    simp only [T, List.flatMap_cons, List.append_assoc]
    rw [strip_append_of_space (hs x hx), strip_of_solid (hP _ ((hg x hx).2 _))]
  have hT (l' : List γ) (hl' : l' ⊆ l) : P (T l') := by
    cases l' with
    | nil => exact hafter
    | cons x l' =>
      have hx := hl' List.mem_cons_self
      rw [hcons hx]
      exact (hg x hx).2 _
  refine ⟨hT l (List.Subset.refl l), .manyWith (T := T) (fun before x l' earlier hl hbefore => ?_) ?_⟩
  · have hx : x ∈ l := by rw [hl]; simp
    have hl' : l' ⊆ l := by
      rw [hl]
      exact fun y hy => List.mem_append_right _ (List.mem_cons_of_mem x hy)
    rw [hcons hx]
    refine ⟨hread before x _ earlier ⟨l', by rw [hl]; simp⟩ hbefore (hT l' hl'), ?_⟩
    exact byteCount_strip_lt (hg x hx).1 _
  · exact fun earlier _ => hmiss earlier

theorem reads_lines {p : Parser α} (hs : ∀ x ∈ l, ∀ c ∈ s x, isSpace c = true)
    (hP : ∀ cs, P cs → Solid cs) (hg : ∀ x ∈ l, g x ≠ [] ∧ ∀ rest, P (g x ++ rest))
    (hread : ∀ x ∈ l, ∀ rest, P (strip rest) → Reads p (g x ++ rest) (strip rest) (Q x))
    (hafter : P (strip after)) (hmiss : Misses p (strip after)) :
    P (strip (l.flatMap (fun x => s x ++ g x) ++ after)) ∧
      Reads (many p) (strip (l.flatMap (fun x => s x ++ g x) ++ after)) (strip after)
        (List.Forall₂ Q l) := by
  refine reads_lines_with after hs hP hg (fun before x rest _ hx _ => hread x ?_ rest) hafter fun _ => hmiss
  exact hx.subset (by simp)

end

end Grammar

end Primer
