import Primer.Proofs.LineEnds.Program

/-!
Lines and columns, counted. A line break ends behind a line feed, and behind a carriage return that no line
feed follows; where both stand together they are one break. Reading a text up to a place that is not within
such a pair comes to the line and column that one counts there (`Location.after_take`), so that places
further on in the text have later locations (`Position.locate?_exact`). Lines and columns are no greater than
the text is long (`Position.locate?_le`).
-/

namespace Primer

namespace Location

/-- Whether a line break ends behind the first `n` characters. -/
def endsBreak (cs : List Char) : Nat → Bool
  | 0 => false
  | n + 1 => cs[n]? == some '\n' || (cs[n]? == some '\r' && cs[n + 1]? != some '\n')

/-- Where the line breaks among the first `n` characters end. -/
def breakEnds (cs : List Char) (n : Nat) : List Nat := (List.range (n + 1)).filter (endsBreak cs)

/-- Where the line of the `n`-th character starts: behind the last line break before it. -/
def lineStart (cs : List Char) (n : Nat) : Nat := (breakEnds cs n).getLastD 0

/-- The location behind the first `n` characters, from the number of line breaks among them and the number
of characters behind the last of these. -/
def counted (cs : List Char) (n : Nat) : Location :=
  ⟨1 + (breakEnds cs n).length, 1 + (n - lineStart cs n)⟩

/-- The location is on an earlier line, or further to the left on the same line. -/
def Precedes (l l' : Location) : Prop := l.line < l'.line ∨ l.line = l'.line ∧ l.column < l'.column

/-- Whether the place behind the first `n` characters stands between a carriage return and a line feed. -/
def splitsBreak (cs : List Char) (n : Nat) : Bool :=
  (cs.take n).getLast? == some '\r' && cs[n]? == some '\n'

theorem Precedes.trans {l l' l'' : Location} (h : l.Precedes l') (h' : l'.Precedes l'') :
    l.Precedes l'' := by
  unfold Precedes at *
  omega

theorem Precedes.ne {l l' : Location} (h : l.Precedes l') : l ≠ l' := by
  rintro rfl
  unfold Precedes at h
  omega

/-! ## Counting on -/

section
variable {cs : List Char} {n : Nat}

theorem breakEnds_succ_of_ends (h : endsBreak cs (n + 1) = true) :
    breakEnds cs (n + 1) = breakEnds cs n ++ [n + 1] := by
  rw [breakEnds, List.range_succ, List.filter_append, List.filter_cons_of_pos h]
  rfl

theorem breakEnds_succ_of_not_ends (h : endsBreak cs (n + 1) = false) :
    breakEnds cs (n + 1) = breakEnds cs n := by
  rw [breakEnds, List.range_succ, List.filter_append, List.filter_cons_of_neg (by simp [h])]
  exact List.append_nil _

theorem lineStart_le (cs : List Char) (n : Nat) : lineStart cs n ≤ n := by
  rw [lineStart, List.getLastD_eq_getLast?]
  cases hlast : (breakEnds cs n).getLast? with
  | none => exact Nat.zero_le n
  | some k =>
    have hk := List.mem_of_getLast? hlast
    have hrange : k ∈ List.range (n + 1) := List.mem_of_mem_filter hk
    exact Nat.le_of_lt_succ (List.mem_range.1 hrange)

theorem counted_succ_of_ends (h : endsBreak cs (n + 1) = true) :
    counted cs (n + 1) = ⟨(counted cs n).line + 1, 1⟩ := by
  have hstart : lineStart cs (n + 1) = n + 1 := by
    rw [lineStart, breakEnds_succ_of_ends h]
    simp
  rw [counted, counted, hstart, breakEnds_succ_of_ends h, List.length_append, Nat.sub_self]
  rfl

theorem counted_succ_of_not_ends (h : endsBreak cs (n + 1) = false) :
    counted cs (n + 1) = ⟨(counted cs n).line, (counted cs n).column + 1⟩ := by
  have hstart : lineStart cs (n + 1) = lineStart cs n := by
    rw [lineStart, lineStart, breakEnds_succ_of_not_ends h]
  have hle := lineStart_le cs n
  rw [counted, counted, hstart, breakEnds_succ_of_not_ends h, Nat.sub_add_comm hle]
  rfl

theorem counted_precedes_succ (cs : List Char) (n : Nat) :
    (counted cs n).Precedes (counted cs (n + 1)) := by
  cases h : endsBreak cs (n + 1) with
  | true =>
    rw [counted_succ_of_ends h]
    exact .inl (Nat.lt_succ_self _)
  | false =>
    rw [counted_succ_of_not_ends h]
    exact .inr ⟨rfl, Nat.lt_succ_self _⟩

theorem counted_precedes {m n : Nat} (h : m < n) : (counted cs m).Precedes (counted cs n) := by
  induction h with
  | refl => exact counted_precedes_succ cs m
  | step _ ih => exact ih.trans (counted_precedes_succ cs _)

end

/-! ## Reading on -/

/-- The location behind a character that is not the first half of a line break. -/
def next (l : Location) (c : Char) : Location :=
  if c = '\n' ∨ c = '\r' then ⟨l.line + 1, 1⟩ else ⟨l.line, l.column + 1⟩

theorem after_cons_eq_next {l : Location} {c : Char} {cs : List Char}
    (h : c = '\r' → cs.head? ≠ some '\n') : l.after (c :: cs) = (l.next c).after cs := by
  rw [after, next]
  · split <;> rfl
  · rintro t hc rfl
    exact h hc rfl

/-- Reading may be interrupted wherever no line break is split. -/
theorem after_append {l : Location} {pre rest : List Char}
    (h : pre.getLast? = some '\r' → rest.head? ≠ some '\n') :
    l.after (pre ++ rest) = (l.after pre).after rest := by
  have hrest {c : Char} {cs : List Char} (h : (c :: cs).getLast? = some '\r' → rest.head? ≠ some '\n')
      (hcs : cs.getLast? = some '\r') : rest.head? ≠ some '\n' := by
    apply h
    rw [List.getLast?_cons, hcs]
    rfl
  fun_induction after l pre with
  | case1 l => rfl
  | case2 l cs ih => exact ih (hrest (hrest h))
  | case3 l c cs hpair hbreak ih | case4 l c cs hpair hbreak ih =>
    rw [← ih (hrest h), List.cons_append, after_cons_eq_next, next]
    · simp only [hbreak, if_true, if_false]
    · rintro rfl
      cases cs with
      | nil => exact h rfl
      | cons d cs =>
        rintro ⟨⟩
        exact hpair cs rfl rfl

/-- A character moves a location one line or one column on, or back to the first column. -/
theorem after_le {l : Location} (hl : 1 ≤ l.column) (cs : List Char) :
    (l.after cs).line ≤ l.line + cs.length ∧ (l.after cs).column ≤ l.column + cs.length := by
  fun_induction after l cs with
  | case1 l => exact ⟨Nat.le_refl _, Nat.le_refl _⟩
  | case2 l cs ih | case3 l c cs _ _ ih =>
    obtain ⟨hline, hcolumn⟩ := ih (Nat.le_refl 1)
    simp only [List.length_cons] at hline hcolumn ⊢
    omega
  | case4 l c cs _ _ ih =>
    obtain ⟨hline, hcolumn⟩ := ih (Nat.le_add_left 1 _)
    simp only [List.length_cons] at hline hcolumn ⊢
    omega

variable {cs : List Char} {n : Nat}

theorem splitsBreak_iff :
    splitsBreak cs n = true ↔ (cs.take n).getLast? = some '\r' ∧ cs[n]? = some '\n' := by
  rw [splitsBreak, Bool.and_eq_true, beq_iff_eq, beq_iff_eq]

theorem after_append_return (l : Location) (pre : List Char) :
    l.after (pre ++ ['\r']) = ⟨(l.after pre).line + 1, 1⟩ := by
  rw [after_append (by simp)]
  rfl

/-- Behind a carriage return a line feed does not show. -/
theorem after_append_newline {l : Location} {pre : List Char} (h : pre.getLast? = some '\r') :
    l.after (pre ++ ['\n']) = l.after pre := by
  obtain ⟨pre, rfl⟩ := List.getLast?_eq_some_iff.1 h
  rw [after_append_return, List.append_assoc, after_append (by simp)]
  rfl

theorem endsBreak_succ {c : Char} (h : cs[n]? = some c) : endsBreak cs (n + 1) =
    (c == '\n' || (c == '\r' && cs[n + 1]? != some '\n')) := by
  rw [endsBreak, h]
  rfl

/-- One character more, where what was read before splits no line break. -/
theorem next_counted {c : Char} (h : cs[n]? = some c) : (counted cs n).next c =
    if c == '\r' && cs[n + 1]? == some '\n' then ⟨(counted cs (n + 1)).line + 1, 1⟩
    else counted cs (n + 1) := by
  have hends := endsBreak_succ h
  by_cases hline : c = '\n'
  · subst hline
    rw [counted_succ_of_ends hends]
    rfl
  by_cases hreturn : c = '\r'
  · subst hreturn
    cases hnext : cs[n + 1]? == some '\n' with
    | true =>
      have hfalse : endsBreak cs (n + 1) = false := by rw [hends, bne, hnext]; rfl
      rw [counted_succ_of_not_ends hfalse]
      rfl
    | false =>
      have htrue : endsBreak cs (n + 1) = true := by rw [hends, bne, hnext]; rfl
      rw [counted_succ_of_ends htrue]
      rfl
  · have hne {d : Char} (hd : c ≠ d) : (c == d) = false := beq_eq_false_iff_ne.2 hd
    rw [hne hline, hne hreturn] at hends
    rw [counted_succ_of_not_ends hends, next, hne hreturn, if_neg (by simp [hline, hreturn])]
    rfl

/-- What is read comes to the location that is counted. Only between a carriage return and a line feed is
the next line read as begun, though the break ends later. -/
theorem after_take (hn : n ≤ cs.length) : start.after (cs.take n) =
    if splitsBreak cs n then ⟨(counted cs n).line + 1, 1⟩ else counted cs n := by
  induction n with
  | zero => rfl
  | succ n ih =>
    have hget : cs[n]? = some cs[n] := List.getElem?_eq_getElem hn
    have htake : cs.take (n + 1) = cs.take n ++ [cs[n]] := by
      rw [List.take_add_one, hget]
      rfl
    have ih := ih (Nat.le_of_lt hn)
    have hsplits : splitsBreak cs (n + 1) = (cs[n] == '\r' && cs[n + 1]? == some '\n') := by
      rw [splitsBreak, htake, List.getLast?_concat]
      rfl
    rw [htake, hsplits]
    cases hsplit : splitsBreak cs n with
    | true =>
      obtain ⟨hreturn, hline⟩ := splitsBreak_iff.1 hsplit
      have hc : cs[n] = '\n' := Option.some.inj (hget ▸ hline)
      rw [hc, after_append_newline hreturn, ih, hsplit, counted_succ_of_ends]
      · rfl
      · rw [endsBreak_succ hline]
        rfl
    | false =>
      rw [hsplit] at ih
      have hwhole (hreturn : (cs.take n).getLast? = some '\r') : [cs[n]].head? ≠ some '\n' := by
        intro hline
        rw [splitsBreak_iff.2 ⟨hreturn, hget.trans hline⟩] at hsplit
        cases hsplit
      rw [after_append hwhole, ih, ← next_counted hget]
      exact after_cons_eq_next (by simp)

end Location

theorem byteCount_take_le (cs : List Char) {m n : Nat} (h : m ≤ n) :
    byteCount (cs.take m) ≤ byteCount (cs.take n) := by
  obtain ⟨rest, hrest⟩ := List.take_prefix_take_left h (l := cs)
  rw [← hrest, byteCount_append]
  exact Nat.le_add_right _ _

/-- The characters that fill a number of bytes are the first ones, unless there are fewer bytes. -/
theorem exists_append_of_charsWithin? {n : Nat} {cs pre : List Char} (hn : n ≤ byteCount cs)
    (h : charsWithin? n cs = some pre) : ∃ rest, cs = pre ++ rest ∧ byteCount pre = n := by
  fun_induction charsWithin? n cs generalizing pre with
  | case1 cs =>
    cases h
    exact ⟨cs, rfl, rfl⟩
  | case2 n hpos =>
    cases h
    exact ⟨[], rfl, by simp_all⟩
  | case3 n c cs _ hc ih =>
    obtain ⟨pre', hpre', rfl⟩ := Option.map_eq_some_iff.1 h
    rw [byteCount_cons] at hn
    obtain ⟨rest, rfl, hbytes⟩ := ih (by omega) hpre'
    exact ⟨rest, rfl, by rw [byteCount_cons]; omega⟩
  | case4 => cases h

theorem length_le_byteCount (cs : List Char) : cs.length ≤ byteCount cs := by
  induction cs with
  | nil => exact Nat.le_refl 0
  | cons c cs ih =>
    have hc := c.utf8Size_pos
    rw [List.length_cons, byteCount_cons]
    omega

namespace Position

open Location

/-- Lines and columns are bounded by the size of the text. In one of fewer than `2 ^ 32 - 1` bytes both fit
in 32 bits. -/
theorem locate?_le {i : Position} {s : String} {l : Location} (h : i.locate? s = some l) :
    l.line ≤ s.utf8ByteSize + 1 ∧ l.column ≤ s.utf8ByteSize + 1 := by
  obtain ⟨pre, hpre, rfl⟩ := Option.map_eq_some_iff.1 h
  obtain ⟨rest, hs, -⟩ := exists_append_of_charsWithin? (Nat.sub_le _ _) hpre
  have hsize : pre.length ≤ s.utf8ByteSize := by
    have hpre := length_le_byteCount pre
    rw [utf8ByteSize_eq, hs, byteCount_append]
    omega
  obtain ⟨hline, hcolumn⟩ := after_le (l := start) (Nat.le_refl 1) pre
  have hstart : start.line = 1 ∧ start.column = 1 := ⟨rfl, rfl⟩
  omega

/-- The position that many bytes behind the start of the text. -/
def ofOffset (s : String) (offset : Nat) : Position := ⟨s.utf8ByteSize - offset⟩

/-- The offset stands between two characters of the text, at its start or at its end, and not between a
carriage return and a line feed. -/
def IsOffset (s : String) (offset : Nat) : Prop :=
  ∃ before after, s = before ++ after ∧ offset = before.utf8ByteSize ∧
    splitsBreak s.toList before.length = false

theorem locate?_ofOffset {s before after : String} (h : s = before ++ after)
    (hwhole : splitsBreak s.toList before.length = false) :
    (ofOffset s before.utf8ByteSize).locate? s = some (counted s.toList before.length) := by
  have hchars : s.toList = before.toList ++ after.toList := by rw [h, String.toList_append]
  have hbytes : ofOffset s before.utf8ByteSize = ⟨byteCount after.toList⟩ := by
    rw [ofOffset, utf8ByteSize_eq, utf8ByteSize_eq, hchars, byteCount_append, Nat.add_sub_cancel_left]
  have htake : s.toList.take before.length = before.toList := by
    rw [hchars, ← String.length_toList, List.take_left]
  have hle : before.length ≤ s.toList.length := by
    rw [hchars, List.length_append, String.length_toList]
    exact Nat.le_add_right _ _
  have hread := after_take hle
  rw [htake, hwhole] at hread
  rw [hbytes, locate?_of_append hchars, hread]
  rfl

/-- A later offset has a later location. -/
theorem IsOffset.precedes {s : String} {i j : Nat} (hi : IsOffset s i) (hj : IsOffset s j) (h : i < j) :
    ∃ l l', (ofOffset s i).locate? s = some l ∧ (ofOffset s j).locate? s = some l' ∧ l.Precedes l' := by
  obtain ⟨before, after, hs, rfl, hwhole⟩ := hi
  obtain ⟨before', after', hs', rfl, hwhole'⟩ := hj
  have htake {before after : String} (hs : s = before ++ after) :
      before.utf8ByteSize = byteCount (s.toList.take before.length) := by
    rw [hs, String.toList_append, ← String.length_toList, List.take_left, utf8ByteSize_eq]
  have hlt : before.length < before'.length := by
    by_contra hle
    rw [htake hs, htake hs'] at h
    exact absurd (byteCount_take_le s.toList (Nat.not_lt.1 hle)) (Nat.not_le.2 h)
  exact ⟨_, _, locate?_ofOffset hs hwhole, locate?_ofOffset hs' hwhole', counted_precedes hlt⟩

/-- **Lines and columns are exact.** At every place between two characters that does not split a line break,
the location is the number of line breaks that end before it and the number of characters behind the last
of them, both counted from one. So locations grow with the offset, and no two offsets share one. The counts
have no bound here: for those of 32 bits it is so in texts of fewer than `2 ^ 32 - 1` bytes, see
`locate?_le`. -/
theorem locate?_exact (s : String) :
    (∀ before after, s = before ++ after → splitsBreak s.toList before.length = false →
      (ofOffset s before.utf8ByteSize).locate? s = some (counted s.toList before.length)) ∧
    (∀ i j, IsOffset s i → IsOffset s j → i < j → ∃ l l', (ofOffset s i).locate? s = some l ∧
      (ofOffset s j).locate? s = some l' ∧ l.Precedes l') ∧
    ∀ i j, IsOffset s i → IsOffset s j →
      (ofOffset s i).locate? s = (ofOffset s j).locate? s → i = j := by
  refine ⟨fun _ _ => locate?_ofOffset, fun _ _ => IsOffset.precedes, fun i j hi hj heq => ?_⟩
  have hne {i j : Nat} (hi : IsOffset s i) (hj : IsOffset s j) (h : i < j) :
      (ofOffset s i).locate? s ≠ (ofOffset s j).locate? s := by
    obtain ⟨l, l', hl, hl', hprecedes⟩ := hi.precedes hj h
    rw [hl, hl']
    exact fun heq => hprecedes.ne (Option.some.inj heq)
  rcases Nat.lt_trichotomy i j with h | h | h
  · exact absurd heq (hne hi hj h)
  · exact h
  · exact absurd heq.symm (hne hj hi h)

/-- A text with all three kinds of line breaks and a letter of two bytes. -/
def mixedBreaksText : String := "\r\n\u00e9\n\ra\r"

theorem locate?_exact_mixed : IsOffset mixedBreaksText 6 ∧ IsOffset mixedBreaksText 8 ∧
    (ofOffset mixedBreaksText 6).locate? mixedBreaksText = some ⟨4, 1⟩ ∧
    (ofOffset mixedBreaksText 8).locate? mixedBreaksText = some ⟨5, 1⟩ ∧
    (⟨4, 1⟩ : Location).Precedes ⟨5, 1⟩ := by
  obtain ⟨hexact, hprecedes, -⟩ := locate?_exact mixedBreaksText
  have hfront : mixedBreaksText = "\r\n\u00e9\n\r" ++ "a\r" := by decide +kernel
  have hwhole : mixedBreaksText = mixedBreaksText ++ "" := by decide +kernel
  have hsix : IsOffset mixedBreaksText 6 := ⟨_, _, hfront, by decide +kernel, by decide +kernel⟩
  have height : IsOffset mixedBreaksText 8 := ⟨_, _, hwhole, by decide +kernel, by decide +kernel⟩
  have hl : (ofOffset mixedBreaksText 6).locate? mixedBreaksText = some ⟨4, 1⟩ :=
    (hexact _ _ hfront (by decide +kernel)).trans (by decide +kernel)
  have hl' : (ofOffset mixedBreaksText 8).locate? mixedBreaksText = some ⟨5, 1⟩ :=
    (hexact _ _ hwhole (by decide +kernel)).trans (by decide +kernel)
  obtain ⟨l, l', h, h', hbefore⟩ := hprecedes 6 8 hsix height (by decide)
  rw [hl, Option.some.injEq] at h
  rw [hl', Option.some.injEq] at h'
  subst h h'
  exact ⟨hsix, height, hl, hl', hbefore⟩

end Position

end Primer
