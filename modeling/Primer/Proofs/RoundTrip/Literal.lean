import Primer.Proofs.RoundTrip.Lexical

/-!
Literals read back as they are written, before a text that goes on with neither a word nor a point.
-/

namespace Primer

theorem isNameChar_of_isNameStart {c : Char} (h : isNameStart c = true) : isNameChar c = true := by
  simp only [isNameStart, isNameChar, Char.isAlphanum, Bool.or_eq_true] at h ⊢
  exact h.imp_left .inl

/-- A single letter is a name. -/
theorem legalName_of_letter {name : String} {c : Char} (hname : name.toList = [c])
    (hc : isNameStart c = true) (hkey : isKeyword name = false) : LegalName name where
  start := ⟨c, by simp [hname], hc⟩
  chars := by
    rw [hname]
    intro d hd
    rw [List.mem_singleton.1 hd]
    exact isNameChar_of_isNameStart hc
  notKeyword := hkey
  length_le := by
    rw [← String.length_toList, hname, List.length_singleton]
    decide

theorem isDigit_eq_false_of_isNameStart {c : Char} (h : isNameStart c = true) :
    c.isDigit = false := by
  have habove : '9'.val < c.val := by
    rw [isNameStart, Bool.or_eq_true, beq_iff_eq] at h
    rcases h with h | rfl
    · have hcase : c.isUpper = true ∨ c.isLower = true := (Bool.or_eq_true _ _).mp h
      rcases hcase with h | h
      · have hlow : 'A'.val ≤ c.val := (of_decide_eq_true h).1
        exact UInt32.lt_of_lt_of_le (by decide) hlow
      · have hlow : 'a'.val ≤ c.val := of_decide_eq_true (Bool.and_eq_true_iff.1 h).1
        exact UInt32.lt_of_lt_of_le (by decide) hlow
    · decide
  rw [Char.isDigit, decide_eq_false (UInt32.not_le.2 habove), Bool.and_false]

theorem isDigit_eq_false_of_apart {cs : List Char} (h : Apart cs) :
    ∀ c ∈ cs.head?, c.isDigit = false := by
  intro c hc
  have hname := h c hc
  simp only [isNameChar, Char.isAlphanum, Bool.or_eq_false_iff] at hname
  exact hname.1.2

theorem toList_toString_int (v : Int) :
    (toString v).toList = (if v < 0 then ['-'] else []) ++ Nat.toDigits 10 v.natAbs := by
  cases v with
  | ofNat n => simp [toString, Int.repr]
  | negSucc n => simp [toString, Int.repr]

theorem Literal.ofInt?_integer {v : Int} (h : (Literal.integer v).Legal) :
    Literal.ofInt? v = some (.integer v) := by
  have hrange : leastInteger ≤ v ∧ v ≤ greatestInteger := h
  rw [Literal.ofInt?, if_pos hrange]

theorem Literal.ofInt?_natural {n : Nat} (h : (Literal.natural n).Legal) :
    Literal.ofInt? n = some (.natural n) := by
  obtain ⟨hlow, hhigh⟩ := h
  rw [Literal.ofInt?, if_neg (fun hint => Int.not_le.2 hlow hint.2),
    if_pos ⟨Int.natCast_nonneg n, by exact_mod_cast hhigh⟩, Int.toNat_natCast]

/-- A legal text is made of plain characters and escapes. -/
theorem LegalText.exists_items {cs : List Char} (h : LegalText cs) :
    ∃ items : List (List Char), cs = items.flatten ∧ ∀ item ∈ items,
      (∃ c, item = [c] ∧ c ∉ ['\\', '"', '\r', '\n']) ∨
      ∃ c, item = ['\\', c] ∧ c ∈ ['"', '\\', 'n', 'r', 't', '0'] := by
  induction h with
  | nil => exact ⟨[], rfl, by simp⟩
  | @plain c cs hc _ ih =>
    obtain ⟨items, rfl, hitems⟩ := ih
    refine ⟨[c] :: items, rfl, fun item hitem => ?_⟩
    rcases List.mem_cons.1 hitem with rfl | hitem
    · exact .inl ⟨c, rfl, hc⟩
    · exact hitems item hitem
  | @escape c cs hc _ ih =>
    obtain ⟨items, rfl, hitems⟩ := ih
    refine ⟨['\\', c] :: items, rfl, fun item hitem => ?_⟩
    rcases List.mem_cons.1 hitem with rfl | hitem
    · exact .inr ⟨c, rfl, hc⟩
    · exact hitems item hitem

section
variable {next : σ → Char → σ} {inside escaped : σ}
variable (hplain : ∀ c ∉ ['\\', '"', '\r', '\n'], next inside c = inside)
variable (hslash : next inside '\\' = escaped) (hescaped : ∀ c, next escaped c = inside)
include hplain hslash hescaped

/-- A scanner of quoted text is inside again behind a legal one. -/
theorem LegalText.foldl_eq {cs : List Char} (h : LegalText cs) : cs.foldl next inside = inside := by
  induction h with
  | nil => rfl
  | plain hc _ ih => rw [List.foldl_cons, hplain _ hc, ih]
  | escape _ _ ih => rw [List.foldl_cons, List.foldl_cons, hslash, hescaped, ih]

/-- A scanner of quoted text leaves it nowhere within a legal one. -/
theorem LegalText.foldl_within {cs : List Char} (h : LegalText cs) {before after : List Char}
    (hcs : cs = before ++ after) :
    before.foldl next inside = inside ∨ before.foldl next inside = escaped := by
  induction h generalizing before with
  | nil =>
    rw [(List.append_eq_nil_iff.1 hcs.symm).1]
    exact .inl rfl
  | @plain c cs hc _ ih =>
    cases before with
    | nil => exact .inl rfl
    | cons d before =>
      rw [List.cons_append, List.cons.injEq] at hcs
      obtain ⟨rfl, hcs⟩ := hcs
      rw [List.foldl_cons, hplain _ hc]
      exact ih hcs
  | @escape c cs _ _ ih =>
    cases before with
    | nil => exact .inl rfl
    | cons d before =>
      rw [List.cons_append, List.cons.injEq] at hcs
      obtain ⟨rfl, hcs⟩ := hcs
      cases before with
      | nil => exact .inr hslash
      | cons f before =>
        rw [List.cons_append, List.cons.injEq] at hcs
        rw [List.foldl_cons, List.foldl_cons, hslash, hescaped]
        exact ih hcs.2

end

/-- Signed digits start with a digit or the sign. -/
theorem exists_head_signed (negative : Bool) {ds : List Char} (hne : ds ≠ [])
    (hds : ∀ c ∈ ds, c.isDigit = true) (rest : List Char) :
    ∃ c tail, (if negative then ['-'] else []) ++ (ds ++ rest) = c :: tail ∧
      (c.isDigit = true ∨ c = '-') := by
  obtain ⟨d, ds, rfl⟩ := List.exists_cons_of_ne_nil hne
  cases negative with
  | true => exact ⟨'-', _, rfl, .inr rfl⟩
  | false => exact ⟨d, _, rfl, .inl (hds d List.mem_cons_self)⟩

theorem isDigit_of_mem_toDigits {n : Nat} {c : Char} (h : c ∈ Nat.toDigits 10 n) :
    c.isDigit = true := Nat.isDigit_of_mem_toDigits (by decide) (by decide) h

theorem exists_head_int (z : Int) :
    ∃ c tail, (toString z).toList = c :: tail ∧ (c.isDigit = true ∨ c = '-') := by
  have hhead := exists_head_signed (decide (z < 0)) Nat.toDigits_ne_nil
    (fun c hc => isDigit_of_mem_toDigits (n := z.natAbs) hc) []
  simpa only [toList_toString_int, List.append_nil, decide_eq_true_eq] using hhead

theorem exists_head_real {x : Binary64} (hx : x.isFinite = true) :
    ∃ c tail, x.literalText.toList = c :: tail ∧ (c.isDigit = true ∨ c = '-') := by
  obtain ⟨whole, fraction, htext, hwne, hw, -⟩ := Binary64.literalText_eq hx
  rw [htext]
  exact exists_head_signed x.negative hwne hw ('.' :: fraction)

theorem Literal.exists_head {v : Literal} (hfin : ∀ x, v = .real x → x.isFinite = true) :
    ∃ c tail, (Canonical.literal v).toList = c :: tail ∧
      (c.isDigit = true ∨ c ∈ ['-', '"', 't', 'f']) := by
  have hsigned {cs : List Char}
      (h : ∃ c tail, cs = c :: tail ∧ (c.isDigit = true ∨ c = '-')) :
      ∃ c tail, cs = c :: tail ∧ (c.isDigit = true ∨ c ∈ ['-', '"', 't', 'f']) := by
    obtain ⟨c, tail, hcs, hc⟩ := h
    exact ⟨c, tail, hcs, hc.imp_right fun h => by rw [h]; decide⟩
  cases v with
  | string text => exact ⟨'"', _, by rw [Canonical.literal]; simp; rfl, by decide⟩
  | real x => exact hsigned (exists_head_real (hfin x rfl))
  | integer z => exact hsigned (exists_head_int z)
  | natural n => exact hsigned (exists_head_int n)
  | boolean b =>
    cases b with
    | true => exact ⟨'t', _, rfl, by decide⟩
    | false => exact ⟨'f', _, rfl, by decide⟩

namespace Grammar

open Primer.Parser

variable {cs rest : List Char}

/-! ## Strings -/

theorem reads_stringItem {item : List Char}
    (h : (∃ c, item = [c] ∧ c ∉ ['\\', '"', '\r', '\n']) ∨
      ∃ c, item = ['\\', c] ∧ c ∈ ['"', '\\', 'n', 'r', 't', '0']) :
    Reads stringItem (item ++ rest) rest (· = item) := by
  rcases h with ⟨c, rfl, hc⟩ | ⟨c, rfl, hc⟩
  · refine .orElse (.bind (.satisfy (by simpa using hc)) fun d hd => .pure ?_)
    rw [hd]
  · refine Misses.orElse_reads ?_ (.bind .char fun b hb => ?_)
    · exact .bind (.satisfy fun d hd => by cases hd; decide)
    · refine .bind (.satisfy (by simpa using hc)) fun d hd => .pure ?_
      rw [hb, hd]

theorem misses_stringItem : Misses stringItem ('"' :: cs) := by
  refine .orElse (.bind (.satisfy ?_)) (.bind (.char (by simp)))
  intro c hc
  cases hc
  decide

theorem reads_string {text : String} (h : LegalText text.toList) :
    Reads string ('"' :: (text.toList ++ '"' :: rest)) rest (· = .string text) := by
  obtain ⟨items, htext, hitems⟩ := h.exists_items
  refine .bind (.discard .char) fun _ _ => .expect ?_
  have hmany := Reads.many (p := stringItem) (T := fun l => l.flatten ++ '"' :: rest)
    (Q := fun item read => read = item) (l := items) ?_ misses_stringItem
  · rw [htext]
    refine .bind hmany fun read hread => .bind (.discard .char) fun _ _ => .pure ?_
    have heq : read = items := by
      refine (List.forall₂_eq_eq_eq ▸ hread.imp fun _ _ h => h.symm : items = read).symm
    rw [heq, ← htext, String.ofList_toList]
  · intro item after hsuffix
    have hitem := hitems item (hsuffix.subset List.mem_cons_self)
    refine ⟨?_, ?_⟩
    · rw [List.flatten_cons, List.append_assoc]
      exact reads_stringItem hitem
    · rw [List.flatten_cons, List.append_assoc]
      refine byteCount_lt_of_append ?_ _
      rcases hitem with ⟨c, rfl, -⟩ | ⟨c, rfl, -⟩ <;> simp

theorem misses_string (h : cs.head? ≠ some '"') : Misses string cs :=
  .bind (.discard (.char h))

theorem misses_string_of_number {number : List Char}
    (h : ∃ c tail, number = c :: tail ∧ (c.isDigit = true ∨ c = '-')) :
    Misses string (number ++ rest) := by
  obtain ⟨c, tail, rfl, hc⟩ := h
  refine misses_string ?_
  rintro ⟨⟩
  revert hc
  decide

/-! ## Numbers -/

/-- The signs that may stand before a number. -/
def signs : List (List Char) := [[], ['+'], ['-']]

theorem sign_mem_signs (negative : Bool) : (if negative then ['-'] else []) ∈ signs := by
  cases negative <;> decide

theorem reads_sign {sign : List Char} (hsign : sign ∈ signs) (h : ∀ c ∈ cs.head?, c.isDigit = true) :
    Reads Grammar.sign (sign ++ cs) cs (· = decide (sign = ['-'])) := by
  simp only [signs, List.mem_cons, List.not_mem_nil, or_false] at hsign
  rcases hsign with rfl | rfl | rfl
  · refine .bind (.maybe_none (.satisfy fun c hc => ?_)) fun o ho => .pure ?_
    · have hdigit := h c hc
      rw [List.contains_eq_mem, decide_eq_false_iff_not]
      rintro hmem
      simp only [List.mem_cons, List.not_mem_nil, or_false] at hmem
      rcases hmem with rfl | rfl <;> exact absurd hdigit (by decide)
    · rw [ho]
      rfl
  · refine .bind (.maybe_some (.satisfy (by decide))) fun o ho => .pure ?_
    obtain ⟨c, rfl, rfl⟩ := ho
    rfl
  · refine .bind (.maybe_some (.satisfy (by decide))) fun o ho => .pure ?_
    obtain ⟨c, rfl, rfl⟩ := ho
    rfl

theorem reads_sign_none (h : ∀ c ∈ cs.head?, isNameStart c = true) :
    Reads sign cs cs fun _ => True := by
  refine .bind (.maybe_none (.satisfy fun c hc => ?_)) fun _ _ => .pure trivial
  have hstart := h c hc
  rw [List.contains_eq_mem, decide_eq_false_iff_not]
  rintro hmem
  simp only [List.mem_cons, List.not_mem_nil, or_false] at hmem
  rcases hmem with rfl | rfl <;> exact absurd hstart (by decide)

theorem head?_digits {ds : List Char} (hne : ds ≠ []) (hds : ∀ c ∈ ds, c.isDigit = true)
    (tail : List Char) : ∀ c ∈ (ds ++ tail).head?, c.isDigit = true := by
  cases ds with
  | nil => exact absurd rfl hne
  | cons d ds =>
    intro c hc
    cases hc
    exact hds d List.mem_cons_self

theorem reads_real {x : Binary64} (hx : x.isFinite = true) (hrest : Apart rest)
    (hpoint : rest.head? ≠ some '.') :
    Reads real (x.literalText.toList ++ rest) rest (· = .real x) := by
  obtain ⟨whole, fraction, htext, hwne, hw, hfne, hf, hvalue⟩ := Binary64.literalText_eq hx
  have hnegative : decide ((if x.negative then ['-'] else []) = ['-']) = x.negative := by
    cases x.negative <;> rfl
  rw [htext, List.append_assoc, List.append_assoc, List.cons_append]
  refine .bind (reads_sign (sign_mem_signs _) (head?_digits hwne hw _)) fun negative hread => ?_
  refine .bind (.takeWhile1 hwne hw fun c hc => by cases hc; decide) fun w hweq => ?_
  refine .bind (.discard .char) fun _ _ => ?_
  refine .bind (.takeWhile1 hfne hf (isDigit_eq_false_of_apart hrest)) fun f hfeq => ?_
  refine .bind (.notFollowedBy (.char hpoint)) fun _ _ => .pure ?_
  rw [hread, hnegative, hweq, hfeq, hvalue]

section
variable {sign ds : List Char} (hsign : sign ∈ signs) (hne : ds ≠ [])
variable (hds : ∀ c ∈ ds, c.isDigit = true) (hrest : Apart rest)
include hsign hne hds hrest

/-- A whole number is not a real, as no point follows its digits. -/
theorem misses_real (hpoint : rest.head? ≠ some '.') : Misses real (sign ++ (ds ++ rest)) := by
  refine .bind_of_reads (reads_sign hsign (head?_digits hne hds _)) fun _ _ => ?_
  refine .bind_of_reads (.takeWhile1 hne hds (isDigit_eq_false_of_apart hrest)) fun _ _ => ?_
  exact .bind (.discard (.char hpoint))

theorem reads_integer {v : Literal}
    (hv : Literal.ofInt? (if sign = ['-'] then -(ofDigits ds : Int) else ofDigits ds) = some v) :
    Reads integer (sign ++ (ds ++ rest)) rest (· = v) := by
  refine .bind .here fun start _ => ?_
  refine .bind (reads_sign hsign (head?_digits hne hds _)) fun n hn => ?_
  refine .bind (.takeWhile1 hne hds (isDigit_eq_false_of_apart hrest)) fun digits hdigits => ?_
  subst hn hdigits
  simp only [decide_eq_true_eq, hv]
  exact .pure rfl

omit hrest in
/-- A number starts with a digit or a sign. -/
theorem head?_number : ∀ c ∈ (sign ++ (ds ++ rest)).head?, c.isDigit = true ∨ c ∈ ['+', '-'] := by
  simp only [signs, List.mem_cons, List.not_mem_nil, or_false] at hsign
  rcases hsign with rfl | rfl | rfl
  · exact fun c hc => .inl (head?_digits hne hds rest c hc)
  · rintro c ⟨⟩
    exact .inr (by decide)
  · rintro c ⟨⟩
    exact .inr (by decide)

omit hrest in
theorem head?_number_ne {d : Char} (hd : ¬ (d.isDigit = true ∨ d ∈ ['+', '-'])) :
    (sign ++ (ds ++ rest)).head? ≠ some d := fun h => hd (head?_number hsign hne hds d h)

omit hrest in
theorem solid_number : Solid (sign ++ (ds ++ rest)) := by
  intro c hc
  have hother {d : Char} (hd : ¬ (d.isDigit = true ∨ d ∈ ['+', '-'])) : c ≠ d := by
    rintro rfl
    exact head?_number_ne hsign hne hds hd hc
  simp only [isSpace, Bool.or_eq_false_iff, beq_eq_false_iff_ne]
  exact ⟨⟨⟨⟨hother (by decide), hother (by decide)⟩, hother (by decide)⟩, hother (by decide)⟩,
    hother (by decide)⟩

omit hrest in
theorem misses_string_of_sign : Misses string (sign ++ (ds ++ rest)) :=
  misses_string (head?_number_ne hsign hne hds (by decide))

/-- Whole numbers are read by their value. -/
theorem reads_literal_number {v : Literal} (hpoint : rest.head? ≠ some '.')
    (hv : Literal.ofInt? (if sign = ['-'] then -(ofDigits ds : Int) else ofDigits ds) = some v) :
    Reads literal (sign ++ (ds ++ rest)) rest (· = v) := by
  refine (misses_string_of_sign hsign hne hds).orElse_reads ?_
  refine (misses_real hsign hne hds hrest hpoint).orElse_reads (.orElse ?_)
  exact reads_integer hsign hne hds hrest hv

end

theorem reads_literal_int {z : Int} {v : Literal} (hv : Literal.ofInt? z = some v)
    (hrest : Apart rest) (hpoint : rest.head? ≠ some '.') :
    Reads literal ((toString z).toList ++ rest) rest (· = v) := by
  have hsign : (if z < 0 then ['-'] else []) ∈ signs := by split <;> decide
  have hminus : (if z < 0 then ['-'] else []) = ['-'] ↔ z < 0 := by split <;> simp_all
  rw [toList_toString_int, List.append_assoc]
  refine reads_literal_number hsign Nat.toDigits_ne_nil (fun _ => isDigit_of_mem_toDigits) hrest hpoint ?_
  have hvalue : (if z < 0 then -(z.natAbs : Int) else z.natAbs) = z := by
    split <;> omega
  simp only [hminus, ofDigits_toDigits, hvalue, hv]

/-! ## Truth values -/

theorem misses_real_of_nameStart {c : Char} (hc : isNameStart c = true) :
    Misses real (c :: cs) := by
  refine .bind_of_reads (reads_sign_none fun d hd => by cases hd; exact hc) fun _ _ => ?_
  exact .bind (.takeWhile1 fun d hd => by
    cases hd; exact isDigit_eq_false_of_isNameStart hc)

theorem misses_integer_of_nameStart {c : Char} (hc : isNameStart c = true) :
    Misses integer (c :: cs) := by
  refine .bind_of_reads .here fun _ _ => ?_
  refine .bind_of_reads (reads_sign_none fun d hd => by cases hd; exact hc) fun _ _ => ?_
  exact .bind (.takeWhile1 fun d hd => by
    cases hd; exact isDigit_eq_false_of_isNameStart hc)

theorem misses_string_of_nameStart {c : Char} (hc : isNameStart c = true) :
    Misses string (c :: cs) := by
  refine misses_string fun h => ?_
  cases h
  exact absurd hc (by decide)

theorem reads_boolean (value : Bool) (hrest : Apart rest) :
    Reads boolean ((toString value).toList ++ rest) rest (· = .boolean value) := by
  cases value with
  | true => exact .orElse (.bind (reads_word rfl hrest) fun _ _ => .pure rfl)
  | false =>
    have hhead : ((toString false).toList ++ rest).head? ≠ some 't' := by
      rw [show (toString false).toList = "false".toList from rfl]
      simp
    refine (misses_word_of_head (c := 't') (by decide) hhead).bind.orElse_reads ?_
    exact .bind (reads_word rfl hrest) fun _ _ => .pure rfl

/-- A literal that is not infinite reads back. -/
theorem reads_literal {v : Literal} (hv : v.Legal) (hfin : ∀ x, v = .real x → x.isFinite = true)
    (hrest : Apart rest) (hpoint : rest.head? ≠ some '.') :
    Reads literal ((Canonical.literal v).toList ++ rest) rest (· = v) := by
  cases v with
  | string text =>
    refine .orElse ?_
    have hread : Reads string _ rest _ := reads_string hv
    simpa [Canonical.literal] using hread
  | real x =>
    have hreal := reads_real (hfin x rfl) hrest hpoint
    exact (misses_string_of_number (exists_head_real (hfin x rfl))).orElse_reads (.orElse hreal)
  | integer value => exact reads_literal_int (Literal.ofInt?_integer hv) hrest hpoint
  | natural value =>
    exact reads_literal_int (z := value) (Literal.ofInt?_natural hv) hrest hpoint
  | boolean value =>
    obtain ⟨c, tail, htext, hc⟩ : ∃ c tail, (toString value).toList = c :: tail ∧
        isNameStart c = true := by
      cases value with
      | true => exact ⟨'t', _, rfl, by decide⟩
      | false => exact ⟨'f', _, rfl, by decide⟩
    have hread := reads_boolean value hrest
    rw [Canonical.literal]
    rw [htext, List.cons_append] at hread ⊢
    refine (misses_string_of_nameStart hc).orElse_reads ?_
    refine (misses_real_of_nameStart hc).orElse_reads ?_
    exact (misses_integer_of_nameStart hc).orElse_reads hread

/-- A word that is no truth value is no literal. -/
theorem misses_literal_of_word {c : Char} (hc : isNameStart c = true) {w : String}
    (hword : leadingWord (c :: cs) = w.toList) (htrue : w ≠ "true") (hfalse : w ≠ "false") :
    Misses literal (c :: cs) := by
  have hother {v : String} (hv : w ≠ v) : leadingWord (c :: cs) ≠ v.toList := by
    rw [hword]
    exact fun heq => hv (String.toList_inj.1 heq)
  refine (misses_string_of_nameStart hc).orElse ((misses_real_of_nameStart hc).orElse ?_)
  refine (misses_integer_of_nameStart hc).orElse (.orElse (.bind ?_) (.bind ?_))
  · exact misses_word (hother htrue) (by decide)
  · exact misses_word (hother hfalse) (by decide)

end Grammar

end Primer
