import Mathlib.Tactic.Choose
import Primer.Proofs.Grammar.Instruction
import Primer.Proofs.Layout
import Primer.Proofs.RoundTrip.Expr

/-!
Instructions read back as they are laid out. An instruction is laid out as a text that ends with its
line; when it is read, the margin of the next line is read with it. A block reads back up to the word
that closes it, as no instruction starts with such a word.
-/

namespace Primer

/-- The words that stand before, between and after the instructions of a block. -/
def blockWords : List String :=
  ["end", "elsif", "else", "endif", "endwhile", "until", "endfor", "local"]

/-- One of the words stands here. -/
def Stops (ends : List String) (cs : List Char) : Prop :=
  ∃ w ∈ ends, ∃ rest, cs = w.toList ++ rest ∧ Apart rest

/-- The text starts like an instruction, and with none of the words around a block. -/
structure InstructionStart (text : List Char) : Prop where
  head : ∃ c tail, text = c :: tail ∧ isExprStart c = true
  word : ∀ rest, ∀ w ∈ blockWords, leadingWord (text ++ rest) ≠ w.toList

/-- At depth `d` the instruction is laid out as the text, which reads back. -/
structure Instruction.RereadsAs (w d : Nat) (i : Instruction) (text : List Char) : Prop where
  start : InstructionStart text
  lays : ∀ fresh, Lays w d fresh (Canonical.instruction i) (lead w d fresh ++ text)
  reads : ∀ after, Solid (strip after) →
    Grammar.instruction.Reads (text ++ after) (strip after) (·.erase = i.erase)

/-- At every depth the instruction reads back. -/
def Instruction.Rereads (i : Instruction) : Prop := ∀ w d, ∃ text, i.RereadsAs w d text

theorem Canonical.block_eq_flatMap (is : List Instruction) :
    Canonical.block is = is.flatMap Canonical.instruction := by
  induction is with
  | nil => rfl
  | cons i is ih => rw [Canonical.block, ih, List.flatMap_cons]

theorem isSpace_margin (w d : Nat) : ∀ c ∈ margin w d, isSpace c = true := by
  intro c hc
  rw [List.eq_of_mem_replicate hc]
  decide

theorem strip_margin (w d : Nat) (cs : List Char) : strip (margin w d ++ cs) = strip cs :=
  strip_append_of_space (isSpace_margin w d)

/-! ## Words around blocks -/

theorem isWord_of_mem_blockWords {w : String} (hw : w ∈ blockWords) : isWord w = true := by
  simp only [blockWords, List.mem_cons, List.not_mem_nil, or_false] at hw
  rcases hw with rfl | rfl | rfl | rfl | rfl | rfl | rfl | rfl <;> decide

theorem isKeyword_of_mem_blockWords {w : String} (hw : w ∈ blockWords) :
    isKeyword w = true ∧ w ∉ ["not", "true", "false"] := by
  simp only [blockWords, List.mem_cons, List.not_mem_nil, or_false] at hw
  rcases hw with rfl | rfl | rfl | rfl | rfl | rfl | rfl | rfl <;> decide

/-- A closing word on the next line. -/
theorem strip_margin_word {v : String} (hv : v ∈ blockWords) (w d : Nat) (cs : List Char) :
    strip (margin w d ++ (v.toList ++ cs)) = v.toList ++ cs := by
  rw [strip_margin]
  exact strip_of_solid (solid_of_isWord (isWord_of_mem_blockWords hv) cs)

namespace Stops

variable {ends : List String} {cs : List Char}

theorem solid (h : Stops ends cs) (hends : ends ⊆ blockWords) : Solid cs := by
  obtain ⟨w, hw, rest, rfl, -⟩ := h
  exact solid_of_isWord (isWord_of_mem_blockWords (hends hw)) rest

theorem word_mem (h : Stops ends cs) (hends : ends ⊆ blockWords) {w : String}
    (hw : leadingWord cs = w.toList) : w ∈ ends := by
  obtain ⟨v, hv, rest, rfl, hrest⟩ := h
  rw [leadingWord_append (isWord_of_mem_blockWords (hends hv)) hrest] at hw
  rw [← String.toList_inj.1 hw]
  exact hv

end Stops

namespace InstructionStart

variable {text : List Char}

theorem solid (h : InstructionStart text) (rest : List Char) : Solid (text ++ rest) := by
  obtain ⟨c, tail, rfl, hc⟩ := h.head
  exact Grammar.solid_of_isExprStart hc

theorem of_expr (h : ExprStart text) {tail : List Char} (htail : ∀ rest, Closed (tail ++ rest)) :
    InstructionStart (text ++ tail) where
  head := by
    obtain ⟨c, cs, rfl, hc⟩ := h.head
    exact ⟨c, cs ++ tail, rfl, hc⟩
  word rest w hw heq := by
    obtain ⟨hkey, hnot⟩ := isKeyword_of_mem_blockWords hw
    rw [List.append_assoc] at heq
    exact hnot (h.word _ (htail rest) w hkey heq)

end InstructionStart

namespace Grammar

open Primer.Parser

variable {cs rest : List Char}

theorem reads_ahead {ends : List String} (hends : ends ⊆ blockWords) (h : Stops ends cs) :
    Reads (ahead ends) cs cs fun _ => True := by
  obtain ⟨w, hw, rest, rfl, hrest⟩ := h
  have hword := leadingWord_append (isWord_of_mem_blockWords (hends hw)) hrest
  have hread : Reads (word w) (w.toList ++ rest) rest fun _ => True := reads_word rfl hrest
  refine .lookAhead (?_ : Reads (choice (ends.map word)) (w.toList ++ rest) rest _)
  induction ends with
  | nil => cases hw
  | cons v ends ih =>
    by_cases hv : v = w
    · subst hv
      exact hread.orElse
    · have hmiss : Misses (word v) (w.toList ++ rest) := by
        refine misses_word ?_ (isWord_of_mem_blockWords (hends List.mem_cons_self))
        rw [hword]
        exact fun heq => hv (String.toList_inj.1 heq).symm
      have hmem : w ∈ ends := (List.mem_cons.1 hw).resolve_left (Ne.symm hv)
      exact hmiss.orElse_reads (ih (fun u hu => hends (List.mem_cons_of_mem v hu)) hmem)

theorem misses_ahead {ends : List String} (hends : ends ⊆ blockWords)
    (h : ∀ w ∈ blockWords, leadingWord cs ≠ w.toList) : Misses (ahead ends) cs := by
  refine .lookAhead (.choice fun p hp => ?_)
  obtain ⟨w, hw, rfl⟩ := List.mem_map.1 hp
  exact misses_word (h w (hends hw)) (isWord_of_mem_blockWords (hends hw))

/-! ## Choice of the instruction -/

/-- The kinds of instructions that start with a word. -/
def worded : List (String × Parser Instruction) :=
  [("print", print), ("read", read), ("return", result), ("if", branch instruction),
    ("while", whileLoop instruction), ("loop", untilLoop instruction),
    ("for", forLoop instruction), ("on", guarded instruction)]

theorem instruction_eq_foldr :
    instruction = worded.foldr (fun a p => a.2 <|> p) (assign <|> evaluate) := instruction_eq

theorem misses_worded {a : String × Parser Instruction} (ha : a ∈ worded)
    (h : leadingWord cs ≠ a.1.toList) : Misses a.2 cs := by
  simp only [worded, List.mem_cons, List.not_mem_nil, or_false] at ha
  rcases ha with rfl | rfl | rfl | rfl | rfl | rfl | rfl | rfl
  case inr.inl => exact .bind (misses_word h (by decide))
  all_goals exact .bind_of_reads .here fun _ _ => .bind (misses_word h (by decide))

theorem reads_instruction_of_worded {k : String} {p : Parser Instruction} {Q : Instruction → Prop}
    (hp : (k, p) ∈ worded) (hword : leadingWord cs = k.toList) (h : Reads p cs rest Q) :
    Reads instruction cs rest Q := by
  rw [instruction_eq_foldr]
  have hkeys : (worded.map Prod.fst).Nodup := by decide
  have hmiss (a) (ha : a ∈ worded) (hne : a.1 ≠ k) : Misses a.2 cs := by
    refine misses_worded ha ?_
    rw [hword]
    exact fun heq => hne (String.toList_inj.1 heq).symm
  generalize worded = l at *
  induction l with
  | nil => cases hp
  | cons a l ih =>
    rw [List.map_cons, List.nodup_cons] at hkeys
    rcases List.mem_cons.1 hp with rfl | hp
    · exact h.orElse
    · have hne : a.1 ≠ k := by
        rintro rfl
        exact hkeys.1 (List.mem_map.2 ⟨_, hp, rfl⟩)
      refine (hmiss a List.mem_cons_self hne).orElse_reads (ih hp hkeys.2 ?_)
      exact fun b hb => hmiss b (List.mem_cons_of_mem a hb)

theorem reads_instruction_of_not_worded {Q : Instruction → Prop}
    (h : ∀ a ∈ worded, leadingWord cs ≠ a.1.toList)
    (hread : Reads (assign <|> evaluate) cs rest Q) : Reads instruction cs rest Q := by
  rw [instruction_eq_foldr]
  have hmiss (a) (ha : a ∈ worded) : Misses a.2 cs := misses_worded ha (h a ha)
  generalize worded = l at *
  induction l with
  | nil => exact hread
  | cons a l ih =>
    refine (hmiss a List.mem_cons_self).orElse_reads (ih ?_ ?_)
    · exact fun b hb => h b (List.mem_cons_of_mem a hb)
    · exact fun b hb => hmiss b (List.mem_cons_of_mem a hb)

/-! ## Blocks -/

/-- A block is laid out as a text that reads back up to a word that closes the block. No other word
around blocks stands at its start. -/
theorem exists_block {is : List Instruction} (h : ∀ i ∈ is, i.Rereads) (w d : Nat) :
    ∃ text, Lays w d true (Canonical.block is) text ∧
      ∀ ends after, ends ⊆ blockWords → Stops ends (strip after) →
        Solid (strip (text ++ after)) ∧
        (∀ v ∈ blockWords, leadingWord (strip (text ++ after)) = v.toList → v ∈ ends) ∧
        Reads (block instruction ends) (strip (text ++ after)) (strip after)
          (·.map Instruction.erase = is.map Instruction.erase) := by
  choose! f hf using fun i hi => h i hi w d
  refine ⟨is.flatMap fun i => margin w d ++ f i, ?_, fun ends after hends hstop => ?_⟩
  · rw [Canonical.block_eq_flatMap]
    exact .flatMap fun i hi => (hf i hi).lays true
  · have hlines := reads_lines (p := do notFollowedBy (ahead ends); instruction)
      (s := fun _ => margin w d) (g := f) (l := is)
      (Q := fun i read => read.erase = i.erase)
      (P := fun cs => Solid cs ∧
        ∀ v ∈ blockWords, leadingWord cs = v.toList → v ∈ ends)
      after (fun _ _ => isSpace_margin w d) (fun _ h => h.1) ?_ ?_ ?_ ?_
    · obtain ⟨⟨hsolid, hword⟩, hread⟩ := hlines
      exact ⟨hsolid, hword, hread.mono fun read hread => map_eq_map_of_forall₂ hread⟩
    · intro i hi
      obtain ⟨c, tail, hne, -⟩ := (hf i hi).start.head
      refine ⟨by simp [hne], fun rest => ⟨(hf i hi).start.solid rest, fun v hv heq => ?_⟩⟩
      exact absurd heq ((hf i hi).start.word rest v hv)
    · intro i hi rest hrest
      refine .bind (.notFollowedBy (misses_ahead hends ((hf i hi).start.word rest))) fun _ _ => ?_
      exact (hf i hi).reads rest hrest.1
    · exact ⟨hstop.solid hends, fun v _ hv => hstop.word_mem hends hv⟩
    · exact .bind (.notFollowedBy (reads_ahead hends hstop))

/-! ## Lines -/

theorem worded_start {k : String} {p : Parser Instruction} (hp : (k, p) ∈ worded)
    {c : Char} (hc : isNameChar c = false) (tail : List Char) :
    leadingWord (k.toList ++ c :: tail) = k.toList ∧
      InstructionStart (k.toList ++ c :: tail) := by
  obtain ⟨hkey, hchars, hk⟩ : isKeyword k = true ∧ isWord k = true ∧ k ∉ blockWords := by
    simp only [worded, List.mem_cons, Prod.mk.injEq, List.not_mem_nil, or_false] at hp
    rcases hp with ⟨rfl, -⟩ | ⟨rfl, -⟩ | ⟨rfl, -⟩ | ⟨rfl, -⟩ | ⟨rfl, -⟩ | ⟨rfl, -⟩ | ⟨rfl, -⟩ |
      ⟨rfl, -⟩ <;> decide
  obtain ⟨d, ds, hd, hstart, -⟩ := exists_cons_of_isKeyword hkey
  have hword (tail : List Char) : leadingWord (k.toList ++ c :: tail) = k.toList :=
    leadingWord_append hchars (Apart.of_cons hc)
  refine ⟨hword tail, ⟨d, ds ++ c :: tail, by rw [hd, List.cons_append],
    isExprStart_of_isNameStart hstart⟩, ?_⟩
  intro rest v hv heq
  rw [List.append_assoc, List.cons_append, hword] at heq
  exact hk (String.toList_inj.1 heq ▸ hv)

end Grammar

open Primer.Grammar Primer.Parser

/-- An instruction that starts with a word reads back if its own production reads it. -/
theorem Instruction.RereadsAs.of_worded {w d : Nat} {i : Instruction} (k : String)
    {p : Parser Instruction} (hp : (k, p) ∈ worded) (c : Char) (hc : isNameChar c = false)
    (tail : List Char)
    (hlays : ∀ fresh, Lays w d fresh (Canonical.instruction i)
      (lead w d fresh ++ (k.toList ++ c :: tail)))
    (hreads : ∀ after, Solid (strip after) →
      p.Reads (k.toList ++ c :: (tail ++ after)) (strip after) (·.erase = i.erase)) :
    i.RereadsAs w d (k.toList ++ c :: tail) where
  start := (worded_start hp hc tail).2
  lays := hlays
  reads after hafter := by
    rw [List.append_assoc, List.cons_append]
    exact reads_instruction_of_worded hp (worded_start hp hc _).1 (hreads after hafter)

namespace Instruction

variable {w d : Nat} {after : List Char}

attribute [local simp] Canonical.instruction

theorem reads_blank_expression {e : Expr} (h : e.Rereads) {rest : List Char} (hrest : Ends rest)
    {item : String} : Reads (expect item (afterSpace expression))
      (' ' :: ((Canonical.expr e).toList ++ rest)) rest (·.erase = e.erase) :=
  .expect (reads_afterSpace_blank (h.start.solid rest) (h.whole rest hrest))

theorem rereads_read {p : Path} (h : p.Rereads) : (Instruction.read p).Rereads := by
  intro w d
  refine ⟨_, .of_worded "read" (p := Grammar.read) (by simp [worded]) ' ' (by decide)
    ((Canonical.path p).toList ++ ['\n']) ?_ ?_⟩
  · intro fresh
    have hline : Lays w d fresh _ _ := .line (t := "read " ++ Canonical.path p) (by simp)
    simpa using hline
  · intro after hafter
    have hclosed : Closed ('\n' :: after) := .newline
    have hsolid := (Expr.exprStart_path h).solid ('\n' :: after)
    refine .bind (reads_word rfl .blank) fun _ _ => ?_
    rw [List.append_assoc]
    refine .bind (.expect (reads_afterSpace_blank hsolid (reads_path h hclosed))) fun q hq => ?_
    refine .bind (.expect (reads_lineEnd hafter)) fun _ _ => .pure ?_
    rw [Instruction.erase, Instruction.erase, hq]

theorem rereads_result {e : Expr} (h : e.Rereads) (position : Position) :
    (Instruction.result position e).Rereads := by
  intro w d
  refine ⟨_, .of_worded "return" (p := Grammar.result) (by simp [worded]) ' ' (by decide)
    ((Canonical.expr e).toList ++ ['\n']) ?_ ?_⟩
  · intro fresh
    have hline : Lays w d fresh _ _ := .line (t := "return " ++ Canonical.expr e) (by simp)
    simpa using hline
  · intro after hafter
    refine .bind .here fun start _ => .bind (reads_word rfl .blank) fun _ _ => ?_
    rw [List.append_assoc]
    refine .bind (reads_blank_expression h ends_newline) fun a ha => ?_
    refine .bind (.expect (reads_lineEnd hafter)) fun _ _ => .pure ?_
    rw [Instruction.erase, Instruction.erase, ha]

theorem rereads_print {es : List Expr} (hne : es ≠ []) (h : ∀ e ∈ es, e.Rereads)
    (position : Position) : (Instruction.print position es).Rereads := by
  intro w d
  obtain ⟨e, es, rfl⟩ := List.exists_cons_of_ne_nil hne
  let items (l : List Expr) : List Char := l.flatMap fun e => ", ".toList ++ (Canonical.expr e).toList
  have htext : (", ".intercalate (Canonical.exprs (e :: es))).toList =
      (Canonical.expr e).toList ++ items es := by
    rw [Canonical.exprs_eq_map, String.toList_intercalate, List.map_cons, List.map_cons,
      intercalate_cons, List.map_map, List.flatMap_map]
    rfl
  refine ⟨_, .of_worded "print" (p := Grammar.print) (by simp [worded]) ' ' (by decide)
    ((Canonical.expr e).toList ++ (items es ++ ['\n'])) ?_ ?_⟩
  · intro fresh
    have hline : Lays w d fresh _ _ :=
      .line (t := "print " ++ ", ".intercalate (Canonical.exprs (e :: es))) (by simp)
    rw [String.toList_append, htext] at hline
    simpa using hline
  · intro after hafter
    let T (l : List Expr) : List Char := items l ++ '\n' :: after
    have hT (l : List Expr) : Ends (T l) := by
      cases l with
      | nil => exact ends_newline
      | cons e l => exact ends_of_cons (by decide) (by decide) (by decide)
    have hexprs : Reads (sepBy1 expression (spaced (char ','))) ((Canonical.expr e).toList ++ T es)
        (T []) (List.Forall₂ (fun e read => read.erase = e.erase) (e :: es)) :=
      .sepBy1 ((h e List.mem_cons_self).whole (T es) (hT es)) ?_ ?_
    · refine .bind .here fun start _ => .bind (reads_word rfl .blank) fun _ _ => ?_
      simp only [List.append_assoc]
      have hsolid := (h e List.mem_cons_self).start.solid (T es)
      refine .bind (.expect (reads_afterSpace_blank hsolid hexprs)) fun as has => ?_
      refine .bind (.expect (reads_lineEnd hafter)) fun _ _ => .pure ?_
      rw [Instruction.erase, Instruction.erase, map_eq_map_of_forall₂ has]
    · intro e' l hl
      have he' := h e' (List.mem_cons_of_mem e (hl.subset List.mem_cons_self))
      have hcons : T (e' :: l) = ',' :: ' ' :: ((Canonical.expr e').toList ++ T l) := by
        simp [T, items]
      rw [hcons]
      have hcomma : Reads (spaced (char ',')) (',' :: ' ' :: ((Canonical.expr e').toList ++ T l))
          ((Canonical.expr e').toList ++ T l) (· = ',') := by
        refine .bind (reads_space_nil (.of_cons (by decide) (by decide))) fun _ _ => ?_
        refine .bind .char fun c hc => ?_
        exact .bind (reads_space_blank (he'.start.solid (T l))) fun _ _ => .pure hc
      refine ⟨.bind hcomma fun _ _ => he'.whole (T l) (hT l), ?_⟩
      · exact byteCount_lt_of_append
          (by simp : ',' :: ' ' :: (Canonical.expr e').toList ≠ []) (T l)
    · exact .bind_of_reads reads_space_newline fun _ _ => .bind (.char (by simp))

theorem rereads_whileLoop {e : Expr} (h : e.Rereads) {body : List Instruction}
    (hbody : ∀ i ∈ body, i.Rereads) (position : Position) :
    (Instruction.whileLoop position e body).Rereads := by
  intro w d
  obtain ⟨text, hlays, hblock⟩ := exists_block hbody w (d + 1)
  refine ⟨_, .of_worded "while" (p := Grammar.whileLoop instruction) (by simp [worded])
    ' ' (by decide) ((Canonical.expr e).toList ++ '\n' :: (text ++ (margin w d ++
      ("endwhile".toList ++ ['\n'])))) ?_ ?_⟩
  · intro fresh
    have hline : Lays w d fresh _ _ := .line (t := "while " ++ Canonical.expr e) (by simp)
    have hend : Lays w d true _ _ := .line (t := "endwhile") (by decide)
    simpa [lead] using (hline.append (.indented hlays)).append hend
  · intro after hafter
    have hstop : strip (margin w d ++ ("endwhile".toList ++ '\n' :: after)) =
        "endwhile".toList ++ '\n' :: after := strip_margin_word (by decide) w d _
    obtain ⟨hsolid, -, hread⟩ := hblock ["endwhile"] _ (by decide)
      ⟨"endwhile", by simp, _, hstop, .newline⟩
    rw [hstop] at hread
    simp only [List.append_assoc, List.cons_append, List.nil_append]
    refine .bind .here fun start _ => .bind (reads_word rfl .blank) fun _ _ => ?_
    refine .bind (reads_blank_expression h ends_newline) fun a ha => ?_
    refine .bind (.expect (reads_lineEnd hsolid)) fun _ _ => .bind hread fun is his => ?_
    refine .bind (.expect (reads_word rfl .newline)) fun _ _ => ?_
    refine .bind (.expect (reads_lineEnd hafter)) fun _ _ => .pure ?_
    simp only [Instruction.erase, Instruction.eraseAll_eq_map, ha, his]

theorem rereads_untilLoop {e : Expr} (h : e.Rereads) {body : List Instruction}
    (hbody : ∀ i ∈ body, i.Rereads) (position : Position) :
    (Instruction.untilLoop position body e).Rereads := by
  intro w d
  obtain ⟨text, hlays, hblock⟩ := exists_block hbody w (d + 1)
  refine ⟨_, .of_worded "loop" (p := Grammar.untilLoop instruction) (by simp [worded])
    '\n' (by decide) (text ++ (margin w d ++
      ("until".toList ++ ' ' :: ((Canonical.expr e).toList ++ ['\n'])))) ?_ ?_⟩
  · intro fresh
    have hline : Lays w d fresh _ _ := .line (t := "loop") (by decide)
    have hend : Lays w d true _ _ := .line (t := "until " ++ Canonical.expr e) (by simp)
    simpa [lead] using (hline.append (.indented hlays)).append hend
  · intro after hafter
    have hstop : strip (margin w d ++ ("until".toList ++ ' ' :: ((Canonical.expr e).toList ++
        '\n' :: after))) = "until".toList ++ ' ' :: ((Canonical.expr e).toList ++ '\n' :: after) :=
      strip_margin_word (by decide) w d _
    obtain ⟨hsolid, -, hread⟩ := hblock ["until"] _ (by decide)
      ⟨"until", by simp, _, hstop, .blank⟩
    rw [hstop] at hread
    simp only [List.append_assoc, List.cons_append, List.nil_append]
    refine .bind .here fun start _ => .bind (reads_word rfl .newline) fun _ _ => ?_
    refine .bind (.expect (reads_lineEnd hsolid)) fun _ _ => .bind hread fun is his => ?_
    refine .bind (.expect (reads_word rfl .blank)) fun _ _ => ?_
    refine .bind (reads_blank_expression h ends_newline) fun a ha => ?_
    refine .bind (.expect (reads_lineEnd hafter)) fun _ _ => .pure ?_
    simp only [Instruction.erase, Instruction.eraseAll_eq_map, ha, his]

theorem rereads_forLoop {x : Ident} (hx : LegalName x.name) {first last : Expr}
    (hfirst : first.Rereads) (hlast : last.Rereads) {body : List Instruction}
    (hbody : ∀ i ∈ body, i.Rereads) (position : Position) :
    (Instruction.forLoop position x first last body).Rereads := by
  intro w d
  obtain ⟨text, hlays, hblock⟩ := exists_block hbody w (d + 1)
  refine ⟨_, .of_worded "for" (p := Grammar.forLoop instruction) (by simp [worded])
    ' ' (by decide) (x.name.toList ++ ' ' :: ("in".toList ++ ' ' :: ((Canonical.expr first).toList ++
      ' ' :: ("to".toList ++ ' ' :: ((Canonical.expr last).toList ++ ' ' :: ("do".toList ++
        '\n' :: (text ++ (margin w d ++ ("endfor".toList ++ ['\n']))))))))) ?_ ?_⟩
  · intro fresh
    have hline : Lays w d fresh _ _ := .line (t := "for " ++ x.name ++ " in " ++
      Canonical.expr first ++ " to " ++ Canonical.expr last ++ " do") (by simp)
    have hend : Lays w d true _ _ := .line (t := "endfor") (by decide)
    simpa [lead] using (hline.append (.indented hlays)).append hend
  · intro after hafter
    have hstop : strip (margin w d ++ ("endfor".toList ++ '\n' :: after)) =
        "endfor".toList ++ '\n' :: after := strip_margin_word (by decide) w d _
    obtain ⟨hsolid, -, hread⟩ := hblock ["endfor"] _ (by decide)
      ⟨"endfor", by simp, _, hstop, .newline⟩
    rw [hstop] at hread
    simp only [List.append_assoc, List.cons_append, List.nil_append]
    refine .bind .here fun start _ => .bind (reads_word rfl .blank) fun _ _ => ?_
    refine .bind (.expect (reads_afterSpace_blank (hx.solid _)
      (reads_ident hx .blank))) fun y hy => ?_
    refine .bind (.expect (reads_blank_word (by decide) .blank)) fun _ _ => ?_
    refine .bind (reads_blank_expression hfirst (ends_blank (by decide) (by decide))) fun a ha => ?_
    refine .bind (.expect (reads_blank_word (by decide) .blank)) fun _ _ => ?_
    refine .bind (reads_blank_expression hlast (ends_blank (by decide) (by decide))) fun b hb => ?_
    refine .bind (.expect (reads_blank_word (by decide) .newline)) fun _ _ => ?_
    refine .bind (.expect (reads_lineEnd hsolid)) fun _ _ => .bind hread fun is his => ?_
    refine .bind (.expect (reads_word rfl .newline)) fun _ _ => ?_
    refine .bind (.expect (reads_lineEnd hafter)) fun _ _ => .pure ?_
    simp only [Instruction.erase, Instruction.eraseAll_eq_map, ha, hb, his, Ident.erase_eq_iff.2 hy]

theorem rereads_guarded {e : Expr} (h : e.Rereads) {i : Instruction} (hi : i.Rereads)
    (position : Position) : (Instruction.guarded position e i).Rereads := by
  intro w d
  obtain ⟨text, hstart, hlays, hreads⟩ := hi w d
  refine ⟨_, .of_worded "on" (p := Grammar.guarded instruction) (by simp [worded]) ' ' (by decide)
    ((Canonical.expr e).toList ++ ' ' :: ("do".toList ++ ' ' :: text)) ?_ ?_⟩
  · intro fresh
    have hline : Lays w d fresh _ _ :=
      .write (t := "on " ++ Canonical.expr e ++ " do ") (by simp) (hlays false)
    simpa [lead] using hline
  · intro after hafter
    simp only [List.append_assoc, List.cons_append]
    refine .bind .here fun start _ => .bind (reads_word rfl .blank) fun _ _ => ?_
    refine .bind (reads_blank_expression h (ends_blank (by decide) (by decide))) fun a ha => ?_
    refine .bind (.expect (reads_blank_word (by decide) .blank)) fun _ _ => ?_
    have hread := reads_afterSpace_blank (hstart.solid after) (hreads after hafter)
    refine .bind (.expect hread) fun j hj => .pure ?_
    rw [Instruction.erase, Instruction.erase, ha, hj]

theorem word_ne_of_exprStart {text rest : List Char} (h : ExprStart text) (hrest : Closed rest) :
    ∀ a ∈ worded, leadingWord (text ++ rest) ≠ a.1.toList := by
  intro a ha heq
  have hkey : isKeyword a.1 = true ∧ a.1 ∉ ["not", "true", "false"] := by
    simp only [worded, List.mem_cons, List.not_mem_nil, or_false] at ha
    rcases ha with rfl | rfl | rfl | rfl | rfl | rfl | rfl | rfl <;> decide
  exact hkey.2 (h.word rest hrest a.1 hkey.1 heq)

theorem rereads_assign {p : Path} (hp : p.Rereads) {e : Expr} (he : e.Rereads)
    (position : Position) : (Instruction.assign position p e).Rereads := by
  intro w d
  have hclosed (rest : List Char) : Closed (' ' :: rest) := .blank
  refine ⟨(Canonical.path p).toList ++ ' ' :: '=' :: ' ' :: ((Canonical.expr e).toList ++ ['\n']),
    .of_expr (Expr.exprStart_path hp) fun rest => hclosed _, ?_, ?_⟩
  · intro fresh
    have hline : Lays w d fresh _ _ :=
      .line (t := Canonical.path p ++ " = " ++ Canonical.expr e) (by simp)
    simpa using hline
  · intro after hafter
    simp only [List.append_assoc, List.cons_append, List.nil_append]
    refine reads_instruction_of_not_worded
      (word_ne_of_exprStart (Expr.exprStart_path hp) (hclosed _)) (.orElse ?_)
    refine .bind .here fun start _ => .bind (reads_path hp (hclosed _)) fun q hq => ?_
    have hsign : Reads assignSign ('=' :: ' ' :: ((Canonical.expr e).toList ++ '\n' :: after))
        (' ' :: ((Canonical.expr e).toList ++ '\n' :: after)) fun _ => True :=
      .bind (.discard .char) fun _ _ => .notFollowedBy (.char (by simp))
    refine .bind (reads_afterSpace_blank (.of_cons (by decide) (by decide)) hsign) fun _ _ => ?_
    refine .bind (reads_blank_expression he ends_newline) fun a ha => ?_
    refine .bind (.expect (reads_lineEnd hafter)) fun _ _ => .pure ?_
    rw [Instruction.erase, Instruction.erase, hq, ha]

theorem misses_assign_of_ident {cs : List Char} (h : Misses ident cs) : Misses Grammar.assign cs :=
  .bind_of_reads .here fun _ _ => .bind (.bind (.bind h))

theorem misses_assignSign_operator (o : Operator) {rest : List Char} :
    Misses assignSign (o.text.toList ++ ' ' :: rest) := by
  cases o with
  | equal => exact .bind_of_reads (.discard .char) fun _ _ => .notFollowedBy .char
  | _ => exact .bind (.discard (.char (by simp [Operator.text])))

theorem misses_assign_literal {v : Literal} (hfin : ∀ x, v = .real x → x.isFinite = true)
    {rest : List Char} (hrest : Apart rest) :
    Misses Grammar.assign ((Canonical.literal v).toList ++ rest) := by
  apply misses_assign_of_ident
  have hsign {cs : List Char} (h : ∃ c tail, cs = c :: tail ∧ (c.isDigit = true ∨ c = '-')) :
      Misses ident (cs ++ rest) := by
    obtain ⟨c, tail, rfl, hc⟩ := h
    refine misses_ident_of_head fun d hd => Bool.eq_false_iff.2 fun hstart => ?_
    cases hd
    rcases hc with hc | rfl
    · rw [isDigit_eq_false_of_isNameStart hstart] at hc
      cases hc
    · exact absurd hstart (by decide)
  cases v with
  | string text =>
    refine misses_ident_of_head fun d hd => ?_
    obtain rfl : '"' = d := by simpa [Canonical.literal] using hd
    decide
  | real x => exact hsign (exists_head_real (hfin x rfl))
  | integer z => exact hsign (exists_head_int z)
  | natural n => exact hsign (exists_head_int n)
  | boolean b =>
    cases b with
    | true => exact misses_ident_of_keyword (w := "true") (by decide) hrest
    | false => exact misses_ident_of_keyword (w := "false") (by decide) hrest

/-- An expression that stands as an instruction is no assignment. -/
theorem misses_assign {e : Expr} (hlegal : e.Legal) (hfin : FiniteReals e.nodes) :
    Misses Grammar.assign ((Canonical.expr e).toList ++ '\n' :: after) := by
  have hreal {v : Literal} (h : .literal v ∈ e.nodes) (x : Binary64) (hx : v = .real x) :
      x.isFinite = true := hfin x (hx ▸ h)
  cases e with
  | literal v => exact misses_assign_literal (hreal (Expr.mem_nodes_self _)) .newline
  | path p =>
    have hp := Path.rereads hlegal (hfin.mono (List.subset_cons_self _ _))
    refine .bind_of_reads .here fun _ _ => ?_
    refine .bind_of_reads (reads_path hp .newline) fun _ _ => ?_
    exact .bind (.bind_of_reads reads_space_newline fun _ _ => .bind (.discard (.char (by simp))))
  | not position e =>
    have htext : (Canonical.expr (.not position e)).toList ++ '\n' :: after =
        "not".toList ++ ' ' :: ((Canonical.operand e).toList ++ '\n' :: after) := by
      simp [Canonical.expr, Canonical.operand]
    rw [htext]
    exact misses_assign_of_ident
      (misses_ident_of_keyword (by decide) .blank)
  | binary position o left right =>
    rw [Canonical.toList_binary, List.append_assoc, List.cons_append, List.append_assoc,
      List.cons_append]
    have hleft : FiniteReals left.nodes :=
      (finiteReals_append.1 (hfin.mono (List.subset_cons_self _ _))).1
    cases hleaf : left.isLeaf with
    | false =>
      refine misses_assign_of_ident (misses_ident_of_head ?_)
      intro c hc
      obtain rfl : '(' = c := by simpa [Canonical.operand, Expr.parenthesize, hleaf] using hc
      decide
    | true =>
      rw [Canonical.operand, Expr.parenthesize, if_pos hleaf]
      cases left with
      | literal v =>
        refine misses_assign_literal (hreal ?_) .blank
        exact List.mem_cons_of_mem _ (List.mem_append_left _ (Expr.mem_nodes_self _))
      | path p =>
        -- after the path an operator follows, which is no sign of an assignment
        have hp := Path.rereads hlegal.1 (hleft.mono (List.subset_cons_self _ _))
        refine .bind_of_reads .here fun _ _ => ?_
        refine .bind_of_reads (reads_path hp .blank) fun _ _ => ?_
        exact .bind (.bind_of_reads (reads_space_operator o) fun _ _ => misses_assignSign_operator o)
      | not position e => cases hleaf
      | binary position o l r => cases hleaf

theorem rereads_evaluate {e : Expr} (hlegal : e.Legal) (hfin : FiniteReals e.nodes) :
    (Instruction.evaluate e).Rereads := by
  intro w d
  have h := Expr.rereads hlegal hfin
  have hclosed (rest : List Char) : Closed ('\n' :: rest) := .newline
  refine ⟨(Canonical.expr e).toList ++ ['\n'], .of_expr h.start fun rest => hclosed _, ?_, ?_⟩
  · intro fresh
    refine .line fun hempty => ?_
    obtain ⟨c, tail, htext, -⟩ := h.start.head
    rw [hempty] at htext
    cases htext
  · intro after hafter
    rw [List.append_assoc]
    refine reads_instruction_of_not_worded (word_ne_of_exprStart h.start (hclosed _)) ?_
    refine (misses_assign hlegal hfin).orElse_reads ?_
    refine .bind (h.whole _ ends_newline) fun a ha => ?_
    refine .bind (.expect (reads_lineEnd hafter)) fun _ _ => .pure ?_
    rw [Instruction.erase, Instruction.erase, ha]

/-! ## Branches -/

/-- The words that end the block under a condition. -/
def branchEnds : List String := ["elsif", "else", "endif"]

theorem exists_conditionalBlock {e : Expr} (he : e.Rereads) {body : List Instruction}
    (hbody : ∀ i ∈ body, i.Rereads) (w d : Nat) :
    ∃ text, Lays w d true (Canonical.block body) text ∧
      ∀ keyword after, Stops branchEnds (strip after) →
        Reads (conditionalBlock instruction keyword)
          (' ' :: ((Canonical.expr e).toList ++ ' ' :: ("then".toList ++ '\n' :: (text ++ after))))
          (strip after)
          fun r => r.1.erase = e.erase ∧ r.2.map Instruction.erase = body.map Instruction.erase := by
  obtain ⟨text, hlays, hblock⟩ := exists_block hbody w d
  refine ⟨text, hlays, fun keyword after hstop => ?_⟩
  obtain ⟨hsolid, -, hread⟩ := hblock branchEnds after (by decide) hstop
  refine .bind (reads_blank_expression he (ends_blank (by decide) (by decide))) fun a ha => ?_
  refine .bind (.expect (reads_blank_word (by decide) .newline)) fun _ _ => ?_
  refine .bind (.expect (reads_lineEnd hsolid)) fun _ _ => .bind hread fun is his => ?_
  exact .pure ⟨ha, his⟩

/-- How a conditional alternative is written. -/
def elsifSteps (x : Position × Expr × List Instruction) : List Step :=
  Step.line ("elsif " ++ Canonical.expr x.2.1 ++ " then") ++ [.indented (Canonical.block x.2.2)]

/-- How the last alternative is written. -/
def finalSteps : Option (List Instruction) → List Step
  | none => []
  | some body => Step.line "else" ++ [.indented (Canonical.block body)]

theorem alternatives_eq : ∀ a : Alternatives,
    Canonical.alternatives a = a.conditional.flatMap elsifSteps ++ finalSteps a.final?
  | .none => rfl
  | .otherwise _ => rfl
  | .elsif position condition body next => by
    rw [Canonical.alternatives, alternatives_eq next, Alternatives.conditional, Alternatives.final?,
      List.flatMap_cons, List.append_assoc]
    rfl

/-- What is read for a conditional alternative: a function of the alternatives after it. -/
def ElsifOf (x : Position × Expr × List Instruction) (g : Alternatives → Alternatives) : Prop :=
  ∀ next next', next.erase = next'.erase →
    (g next).erase = (Alternatives.elsif x.1 x.2.1 x.2.2 next').erase

theorem erase_foldr_elsif : ∀ {a final : Alternatives} {gs : List (Alternatives → Alternatives)},
    List.Forall₂ ElsifOf a.conditional gs →
    final.erase = (a.final?.elim Alternatives.none Alternatives.otherwise).erase →
    (gs.foldr (· ·) final).erase = a.erase
  | .none, _, _, hgs, hfinal => by
    rw [List.forall₂_nil_left_iff.1 hgs]
    exact hfinal
  | .otherwise _, _, _, hgs, hfinal => by
    rw [List.forall₂_nil_left_iff.1 hgs]
    exact hfinal
  | .elsif _ _ _ next, _, _, hgs, hfinal => by
    obtain ⟨g, gs', hg, hgs', rfl⟩ := List.forall₂_cons_left_iff.1 hgs
    exact hg _ next (erase_foldr_elsif hgs' hfinal)

theorem exists_elsif {x : Position × Expr × List Instruction} (he : x.2.1.Rereads)
    (hbody : ∀ i ∈ x.2.2, i.Rereads) (w d : Nat) :
    ∃ text, Lays w d true (elsifSteps x) (margin w d ++ ("elsif".toList ++ ' ' :: text)) ∧
      ∀ after, Stops branchEnds (strip after) →
        Reads (elsif instruction) ("elsif".toList ++ ' ' :: (text ++ after)) (strip after)
          (ElsifOf x) := by
  obtain ⟨text, hlays, hblock⟩ := exists_conditionalBlock he hbody w (d + 1)
  refine ⟨(Canonical.expr x.2.1).toList ++ ' ' :: ("then".toList ++ '\n' :: text), ?_, ?_⟩
  · have hline : Lays w d true _ _ := .line (t := "elsif " ++ Canonical.expr x.2.1 ++ " then") (by simp)
    simpa [elsifSteps, lead] using hline.append (.indented hlays)
  · intro after hstop
    simp only [List.append_assoc, List.cons_append]
    refine .bind .here fun start _ => .bind (reads_word rfl .blank) fun _ _ => ?_
    refine .bind (hblock "elsif" after hstop) fun r hr => .pure fun next next' hnext => ?_
    simp only [Alternatives.erase, Instruction.eraseAll_eq_map, hr.1, hr.2, hnext]

theorem exists_elsifs {l : List (Position × Expr × List Instruction)}
    (h : ∀ x ∈ l, x.2.1.Rereads ∧ ∀ i ∈ x.2.2, i.Rereads) (w d : Nat) :
    ∃ text, Lays w d true (l.flatMap elsifSteps) text ∧
      ∀ after, Stops ["else", "endif"] (strip after) → Stops branchEnds (strip (text ++ after)) ∧
        Reads (many (elsif instruction)) (strip (text ++ after)) (strip after)
          (List.Forall₂ ElsifOf l) := by
  choose! f hlays hreads using fun x hx => exists_elsif (h x hx).1 (h x hx).2 w d
  refine ⟨l.flatMap fun x => margin w d ++ ("elsif".toList ++ ' ' :: f x), .flatMap hlays, ?_⟩
  intro after hstop
  refine reads_lines after (fun _ _ => isSpace_margin w d) (fun _ h => h.solid (by decide)) ?_ ?_ ?_ ?_
  · refine fun x _ => ⟨by simp, fun rest => ⟨"elsif", by decide, ' ' :: (f x ++ rest), by simp, ?_⟩⟩
    exact .blank
  · intro x hx rest hrest
    rw [List.append_assoc, List.cons_append]
    exact hreads x hx rest hrest
  · obtain ⟨v, hv, rest, heq, hrest⟩ := hstop
    exact ⟨v, List.mem_cons_of_mem _ hv, rest, heq, hrest⟩
  · refine .bind_of_reads .here fun _ _ => .bind (misses_word (fun hword => ?_) (by decide))
    exact absurd (hstop.word_mem (by decide) hword) (by decide)

theorem exists_final {o : Option (List Instruction)} (h : ∀ body, o = some body → ∀ i ∈ body, i.Rereads)
    (w d : Nat) :
    ∃ text, Lays w d true (finalSteps o) text ∧
      ∀ after, Stops ["endif"] (strip after) → Stops ["else", "endif"] (strip (text ++ after)) ∧
        Reads (maybe (otherwise instruction)) (strip (text ++ after)) (strip after)
          fun f => (f.getD .none).erase = (o.elim Alternatives.none Alternatives.otherwise).erase := by
  cases o with
  | none =>
    refine ⟨[], .nil, fun after hstop => ?_⟩
    have hmiss : Misses (otherwise instruction) (strip after) := by
      refine .bind (misses_word (fun hword => ?_) (by decide))
      exact absurd (hstop.word_mem (by decide) hword) (by decide)
    obtain ⟨v, hv, rest, heq, hrest⟩ := hstop
    refine ⟨⟨v, List.mem_cons_of_mem _ hv, rest, heq, hrest⟩, ?_⟩
    exact (Reads.maybe_none hmiss).mono fun f hf => by rw [hf]; rfl
  | some body =>
    obtain ⟨text, hlays, hblock⟩ := exists_block (h body rfl) w (d + 1)
    refine ⟨margin w d ++ ("else".toList ++ '\n' :: text), ?_, fun after hstop => ?_⟩
    · have hline : Lays w d true _ _ := .line (t := "else") (by decide)
      simpa [finalSteps, lead] using hline.append (.indented hlays)
    · obtain ⟨hsolid, -, hread⟩ := hblock ["endif"] after (by decide) hstop
      rw [List.append_assoc, List.append_assoc, strip_margin_word (by decide)]
      refine ⟨⟨"else", by simp, _, rfl, .newline⟩, ?_⟩
      have helse : Reads (otherwise instruction) ("else".toList ++ '\n' :: (text ++ after))
          (strip after) (·.erase = (Alternatives.otherwise body).erase) := by
        refine .bind (reads_word rfl .newline) fun _ _ => ?_
        refine .bind (.expect (reads_lineEnd hsolid)) fun _ _ => .bind hread fun is his => .pure ?_
        simp only [Alternatives.erase, Instruction.eraseAll_eq_map, his]
      refine helse.maybe_some.mono ?_
      rintro _ ⟨f, rfl, hf⟩
      exact hf

theorem rereads_branch {e : Expr} (he : e.Rereads) {body : List Instruction}
    (hbody : ∀ i ∈ body, i.Rereads) {a : Alternatives}
    (hcond : ∀ x ∈ a.conditional, x.2.1.Rereads ∧ ∀ i ∈ x.2.2, i.Rereads)
    (hfinal : ∀ body, a.final? = some body → ∀ i ∈ body, i.Rereads) (position : Position) :
    (Instruction.branch position e body a).Rereads := by
  intro w d
  obtain ⟨text, hlays, hblock⟩ := exists_conditionalBlock he hbody w (d + 1)
  obtain ⟨elsifs, hlays', helsifs⟩ := exists_elsifs hcond w d
  obtain ⟨final, hlays'', hfinal⟩ := exists_final hfinal w d
  refine ⟨_, .of_worded "if" (p := Grammar.branch instruction) (by simp [worded]) ' ' (by decide)
    ((Canonical.expr e).toList ++ ' ' :: ("then".toList ++ '\n' :: (text ++ (elsifs ++ (final ++
      (margin w d ++ ("endif".toList ++ ['\n']))))))) ?_ ?_⟩
  · intro fresh
    have hline : Lays w d fresh _ _ := .line (t := "if " ++ Canonical.expr e ++ " then") (by simp)
    have hend : Lays w d true _ _ := .line (t := "endif") (by decide)
    have halternatives := hlays'.append hlays''
    rw [← alternatives_eq] at halternatives
    simpa [lead] using
      ((hline.append (.indented hlays)).append halternatives).append hend
  · intro after hafter
    have hstop : strip (margin w d ++ ("endif".toList ++ '\n' :: after)) =
        "endif".toList ++ '\n' :: after := strip_margin_word (by decide) w d _
    obtain ⟨hstop', hread''⟩ := hfinal _ ⟨"endif", by simp, _, hstop, .newline⟩
    obtain ⟨hstop'', hread'⟩ := helsifs _ hstop'
    rw [hstop] at hread''
    simp only [List.append_assoc, List.cons_append, List.nil_append]
    refine .bind .here fun start _ => .bind (reads_word rfl .blank) fun _ _ => ?_
    refine .bind (hblock "if" _ hstop'') fun r hr => ?_
    refine .bind hread' fun gs hgs => .bind hread'' fun f hf => ?_
    refine .bind (.expect (reads_word rfl .newline)) fun _ _ => ?_
    refine .bind (.expect (reads_lineEnd hafter)) fun _ _ => .pure ?_
    simp only [Instruction.erase, Instruction.eraseAll_eq_map, hr.1, hr.2, erase_foldr_elsif hgs hf]

end Instruction

/-! ## All instructions -/

mutual
theorem Instruction.rereads : ∀ {i : Instruction}, i.Legal → FiniteReals i.nodes → i.Rereads
  | .print position es, hlegal, hfin => by
    have hes := finiteReals_flatMap.1 hfin
    exact Instruction.rereads_print hlegal.1 (fun e he => Expr.rereads (hlegal.2 e he) (hes e he)) position
  | .read p, hlegal, hfin => Instruction.rereads_read (Path.rereads (p := p) hlegal hfin)
  | .result position e, hlegal, hfin => Instruction.rereads_result (Expr.rereads (e := e) hlegal hfin) position
  | .evaluate e, hlegal, hfin => Instruction.rereads_evaluate hlegal (finiteReals_nodesRun.1 hfin)
  | .assign position p e, hlegal, hfin => by
    obtain ⟨hp, he⟩ := finiteReals_append.1 hfin
    exact Instruction.rereads_assign (Path.rereads hlegal.1 hp) (Expr.rereads hlegal.2 he) position
  | .branch position e body a, hlegal, hfin => by
    obtain ⟨hrest, ha⟩ := finiteReals_append.1 hfin
    obtain ⟨he, hbody⟩ := finiteReals_append.1 hrest
    obtain ⟨hcond, hfinal⟩ := Alternatives.rereads hlegal.2.2 ha
    exact Instruction.rereads_branch (Expr.rereads hlegal.1 he) (Instruction.rereadsAll hlegal.2.1 hbody)
      hcond hfinal position
  | .whileLoop position e body, hlegal, hfin => by
    obtain ⟨he, hbody⟩ := finiteReals_append.1 hfin
    exact Instruction.rereads_whileLoop (Expr.rereads hlegal.1 he) (Instruction.rereadsAll hlegal.2 hbody) position
  | .untilLoop position body e, hlegal, hfin => by
    obtain ⟨hbody, he⟩ := finiteReals_append.1 hfin
    exact Instruction.rereads_untilLoop (Expr.rereads hlegal.2 he) (Instruction.rereadsAll hlegal.1 hbody) position
  | .forLoop position x first last body, hlegal, hfin => by
    obtain ⟨hbounds, hbody⟩ := finiteReals_append.1 hfin
    obtain ⟨hfirst, hlast⟩ := finiteReals_append.1 hbounds
    obtain ⟨hx, hlegal₁, hlegal₂, hlegal₃⟩ := hlegal
    exact Instruction.rereads_forLoop hx (Expr.rereads hlegal₁ hfirst) (Expr.rereads hlegal₂ hlast)
      (Instruction.rereadsAll hlegal₃ hbody) position
  | .guarded position e i, hlegal, hfin => by
    obtain ⟨he, hi⟩ := finiteReals_append.1 hfin
    exact Instruction.rereads_guarded (Expr.rereads hlegal.1 he) (Instruction.rereads hlegal.2 hi) position

theorem Alternatives.rereads : ∀ {a : Alternatives}, a.Legal → FiniteReals a.nodes →
    (∀ x ∈ a.conditional, x.2.1.Rereads ∧ ∀ i ∈ x.2.2, i.Rereads) ∧
      ∀ body, a.final? = some body → ∀ i ∈ body, i.Rereads
  | .none, _, _ => ⟨fun _ hx => (nomatch hx), fun _ hbody => (nomatch hbody)⟩
  | .otherwise body, hlegal, hfin => by
    have hbody := @Instruction.rereadsAll body hlegal hfin
    exact ⟨fun _ hx => (nomatch hx), fun _ heq => by cases heq; exact hbody⟩
  | .elsif position e body next, hlegal, hfin => by
    obtain ⟨hrest, hnext⟩ := finiteReals_append.1 hfin
    obtain ⟨he, hbody⟩ := finiteReals_append.1 hrest
    obtain ⟨hcond, hfinal⟩ := Alternatives.rereads hlegal.2.2 hnext
    refine ⟨List.forall_mem_cons.2 ⟨⟨Expr.rereads hlegal.1 he, ?_⟩, hcond⟩, hfinal⟩
    exact Instruction.rereadsAll hlegal.2.1 hbody

theorem Instruction.rereadsAll : ∀ {is : List Instruction}, Instruction.LegalAll is →
    FiniteReals (Instruction.nodesAll is) → ∀ i ∈ is, i.Rereads
  | [], _, _ => fun _ hi => nomatch hi
  | i :: is, hlegal, hfin => by
    obtain ⟨hi, his⟩ := finiteReals_append.1 hfin
    exact List.forall_mem_cons.2 ⟨Instruction.rereads hlegal.1 hi, Instruction.rereadsAll hlegal.2 his⟩
end

end Primer
