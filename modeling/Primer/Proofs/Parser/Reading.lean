import Mathlib.Data.List.Forall2
import Primer.Grammar.Lexical

/-!
What a parser does at a given text, its marks left out. `Reads p cs rest Q` says that `p`, started at
the characters `cs`, reads up to `rest` and gives a value with the property `Q`; `Misses p cs` says
that it misses there. Every combinator has a rule for each way it can go, so that a production is
followed along the text one step after the other. The rule for repetitions (`Reads.manyWith`) takes
the text that stands when a list of items is still to be read.
-/

namespace Primer

namespace Cursor

/-- The start of the characters. -/
def ofChars (cs : List Char) : Cursor := ⟨cs, byteCount cs, rfl⟩

@[simp] theorem chars_ofChars (cs : List Char) : (ofChars cs).chars = cs := rfl

@[simp] theorem bytes_ofChars (cs : List Char) : (ofChars cs).bytes = byteCount cs := rfl

@[simp] theorem skip_ofChars (n : Nat) (cs : List Char) :
    (ofChars cs).skip n = ofChars (cs.drop n) := ext rfl

@[simp] theorem ofChars_chars (i : Cursor) : ofChars i.chars = i := ext rfl

/-- The rules are about lists of characters, and a text is read from its list. -/
theorem ofString_eq (s : String) : ofString s = ofChars s.toList := rfl

end Cursor

theorem utf8ByteSize_ofList (cs : List Char) : (String.ofList cs).utf8ByteSize = byteCount cs := by
  induction cs with
  | nil => simp
  | cons c cs ih =>
    rw [← List.singleton_append, String.ofList_append, String.utf8ByteSize_append, ih, byteCount_append]
    simp

theorem utf8ByteSize_eq (s : String) : s.utf8ByteSize = byteCount s.toList := by
  rw [← utf8ByteSize_ofList, String.ofList_toList]

theorem byteCount_lt_of_append {pre : List Char} (h : pre ≠ []) (cs : List Char) :
    byteCount cs < byteCount (pre ++ cs) := by
  cases pre with
  | nil => exact absurd rfl h
  | cons c pre =>
    have hc := c.utf8Size_pos
    simp only [List.cons_append, byteCount_cons, byteCount_append]
    omega

theorem byteCount_le_of_suffix {cs ds : List Char} (h : cs <:+ ds) :
    byteCount cs ≤ byteCount ds := by
  obtain ⟨pre, rfl⟩ := h
  rw [byteCount_append]
  omega

theorem byteCount_lt_of_suffix {cs ds : List Char} (h : cs <:+ ds)
    (hlen : cs.length < ds.length) : byteCount cs < byteCount ds := by
  obtain ⟨pre, rfl⟩ := h
  refine byteCount_lt_of_append ?_ cs
  rintro rfl
  exact absurd hlen (Nat.lt_irrefl _)

namespace Parser

/-- From `cs` the parser reads up to `rest` and gives a value with the property. -/
def Reads (p : Parser α) (cs rest : List Char) (Q : α → Prop) : Prop :=
  ∃ a m, p (.ofChars cs) = .done a (.ofChars rest) m ∧ Q a

/-- At `cs` the parser misses. -/
def Misses (p : Parser α) (cs : List Char) : Prop := ∃ m, p (.ofChars cs) = .miss m

variable {p q : Parser α} {f : α → Parser β} {cs mid rest : List Char}
variable {Q : α → Prop} {R : β → Prop}

theorem Reads.mono {Q' : α → Prop} (h : Reads p cs rest Q) (hQ : ∀ a, Q a → Q' a) :
    Reads p cs rest Q' := by
  obtain ⟨a, m, hp, ha⟩ := h
  exact ⟨a, m, hp, hQ a ha⟩

/-! ## Sequence -/

theorem pure_apply (a : α) (i : Cursor) : (pure a : Parser α) i = .done a i none := rfl

theorem bind_apply (p : Parser α) (f : α → Parser β) (i : Cursor) :
    (p >>= f) i = Parser.bind p f i := rfl

theorem orElse_apply (p q : Parser α) (i : Cursor) :
    (p <|> q) i = Parser.orElse p (fun _ => q) i := rfl

theorem Reads.pure {a : α} (h : Q a) : Reads (pure a) cs cs Q := ⟨a, none, rfl, h⟩

/-- From here on a production is followed step by step: the value of one step decides on the next. -/
theorem Reads.bind (hp : Reads p cs mid Q) (hf : ∀ a, Q a → Reads (f a) mid rest R) :
    Reads (p >>= f) cs rest R := by
  obtain ⟨a, m, hp, ha⟩ := hp
  obtain ⟨b, m', hb, hR⟩ := hf a ha
  refine ⟨b, m.join m', ?_, hR⟩
  simp only [bind_apply, Parser.bind, hp, hb, Reply.after]

theorem Reads.discard (h : Reads p cs rest Q) : Reads (discard p) cs rest fun _ => True :=
  .bind h fun _ _ => .pure trivial

theorem Misses.bind (h : Misses p cs) : Misses (p >>= f) cs := by
  obtain ⟨m, h⟩ := h
  exact ⟨m, by simp only [bind_apply, Parser.bind, h]⟩

theorem Misses.discard (h : Misses p cs) : Misses (discard p) cs := .bind h

/-- A sequence may also miss at its second step; what was read before does not count then. -/
theorem Misses.bind_of_reads (hp : Reads p cs mid Q) (hf : ∀ a, Q a → Misses (f a) mid) :
    Misses (p >>= f) cs := by
  obtain ⟨a, m, hp, ha⟩ := hp
  obtain ⟨m', hb⟩ := hf a ha
  exact ⟨m.join m', by simp only [bind_apply, Parser.bind, hp, hb, Reply.after]⟩

/-! ## Choice -/

/-- The first alternative is taken where it succeeds. -/
theorem Reads.orElse (h : Reads p cs rest Q) : Reads (p <|> q) cs rest Q := by
  obtain ⟨a, m, hp, ha⟩ := h
  exact ⟨a, m, by simp only [orElse_apply, Parser.orElse, hp], ha⟩

/-- The second one is taken where the first misses. -/
theorem Misses.orElse_reads (hp : Misses p cs) (hq : Reads q cs rest Q) :
    Reads (p <|> q) cs rest Q := by
  obtain ⟨m, hp⟩ := hp
  obtain ⟨a, m', hq, ha⟩ := hq
  exact ⟨a, m.join m', by simp only [orElse_apply, Parser.orElse, hp, hq, Reply.after], ha⟩

theorem Misses.orElse (hp : Misses p cs) (hq : Misses q cs) : Misses (p <|> q) cs := by
  obtain ⟨m, hp⟩ := hp
  obtain ⟨m', hq⟩ := hq
  exact ⟨m.join m', by simp only [orElse_apply, Parser.orElse, hp, hq, Reply.after]⟩

theorem Misses.choice {ps : List (Parser α)} (h : ∀ p ∈ ps, Misses p cs) :
    Misses (choice ps) cs := by
  induction ps with
  | nil => exact ⟨_, rfl⟩
  | cons p ps ih =>
    exact (h p List.mem_cons_self).orElse (ih fun q hq => h q (List.mem_cons_of_mem p hq))

/-- The first parser that does not miss decides. -/
theorem Reads.choice {pre post : List (Parser α)} (hpre : ∀ p ∈ pre, Misses p cs)
    (h : Reads p cs rest Q) : Reads (choice (pre ++ p :: post)) cs rest Q := by
  induction pre with
  | nil => exact h.orElse
  | cons q pre ih =>
    exact (hpre q List.mem_cons_self).orElse_reads
      (ih fun r hr => hpre r (List.mem_cons_of_mem q hr))

/-! ## Characters and texts -/

theorem Reads.here : Reads here cs cs (· = .ofChars cs) := ⟨_, none, rfl, rfl⟩

theorem Misses.missAt {i : Cursor} : Misses (missAt i : Parser α) cs := ⟨_, rfl⟩

theorem Reads.satisfy {t : Char → Bool} {c : Char} (h : t c = true) :
    Reads (satisfy t) (c :: cs) cs (· = c) := by
  refine ⟨c, none, ?_, rfl⟩
  simp [Parser.satisfy, h]

theorem Misses.satisfy {t : Char → Bool} (h : ∀ c ∈ cs.head?, t c = false) :
    Misses (satisfy t) cs := by
  cases cs with
  | nil => exact ⟨_, rfl⟩
  | cons c cs =>
    have hc : t c = false := h c rfl
    exact ⟨_, by simp [Parser.satisfy, hc]; rfl⟩

theorem Reads.char {c : Char} : Reads (char c) (c :: cs) cs (· = c) :=
  .satisfy (beq_self_eq_true c)

theorem Misses.char {c : Char} (h : cs.head? ≠ some c) : Misses (char c) cs := by
  apply Misses.satisfy
  intro d hd
  rw [beq_eq_false_iff_ne]
  rintro rfl
  exact h hd

theorem Reads.text {s : String} (h : cs = s.toList ++ rest) :
    Reads (text s) cs rest fun _ => True := by
  subst h
  refine ⟨(), none, ?_, trivial⟩
  simp [Parser.text]

theorem Misses.text {s : String} (h : ¬ s.toList <+: cs) : Misses (text s) cs :=
  ⟨some (byteCount cs), by simp [Parser.text, h]; rfl⟩

/-- A text is missed at its first character already. -/
theorem Misses.text_of_head {s : String} {c : Char} (hs : s.toList.head? = some c)
    (h : cs.head? ≠ some c) : Misses (Parser.text s) cs := by
  apply Misses.text
  rintro ⟨tail, rfl⟩
  exact h (by rw [List.head?_append, hs]; rfl)

/-- The characters with the property up to a text that does not start with one. -/
theorem takeWhile_append {t : Char → Bool} {taken : List Char} (htaken : ∀ c ∈ taken, t c = true)
    (hrest : ∀ c ∈ rest.head?, t c = false) : (taken ++ rest).takeWhile t = taken := by
  rw [List.takeWhile_append_of_pos htaken]
  cases rest with
  | nil => simp
  | cons c rest => simp [hrest c rfl]

theorem Reads.takeWhile {t : Char → Bool} {taken : List Char} (htaken : ∀ c ∈ taken, t c = true)
    (hrest : ∀ c ∈ rest.head?, t c = false) :
    Reads (takeWhile t) (taken ++ rest) rest (· = taken) := by
  refine ⟨taken, none, ?_, rfl⟩
  simp [Parser.takeWhile, takeWhile_append htaken hrest]

theorem Reads.takeWhile1 {t : Char → Bool} {taken : List Char} (hne : taken ≠ [])
    (htaken : ∀ c ∈ taken, t c = true) (hrest : ∀ c ∈ rest.head?, t c = false) :
    Reads (takeWhile1 t) (taken ++ rest) rest (· = taken) := by
  refine ⟨taken, none, ?_, rfl⟩
  simp [Parser.takeWhile1, takeWhile_append htaken hrest, hne]

theorem Misses.takeWhile1 {t : Char → Bool} (h : ∀ c ∈ cs.head?, t c = false) :
    Misses (takeWhile1 t) cs := by
  have hw : ([] ++ cs).takeWhile t = [] := takeWhile_append (by simp) h
  rw [List.nil_append] at hw
  exact ⟨_, by simp [Parser.takeWhile1, hw]; rfl⟩

theorem Reads.atEnd : Reads atEnd [] [] fun _ => True := ⟨(), none, rfl, trivial⟩

/-! ## Look-ahead and options -/

theorem Reads.lookAhead (h : Reads p cs rest Q) : Reads (lookAhead p) cs cs Q := by
  obtain ⟨a, m, hp, ha⟩ := h
  exact ⟨a, m, by simp only [Parser.lookAhead, hp], ha⟩

theorem Misses.lookAhead (h : Misses p cs) : Misses (lookAhead p) cs := by
  obtain ⟨m, h⟩ := h
  exact ⟨m, by simp only [Parser.lookAhead, h]⟩

/-- Nothing is read either way. The two rules exchange reading and missing. -/
theorem Reads.notFollowedBy (h : Misses p cs) : Reads (notFollowedBy p) cs cs fun _ => True := by
  obtain ⟨m, h⟩ := h
  exact ⟨(), m, by simp only [Parser.notFollowedBy, h], trivial⟩

theorem Misses.notFollowedBy (h : Reads p cs rest Q) : Misses (notFollowedBy p) cs := by
  obtain ⟨a, m, h, -⟩ := h
  exact ⟨_, by simp only [Parser.notFollowedBy, h]; rfl⟩

theorem Reads.maybe_some (h : Reads p cs rest Q) :
    Reads (maybe p) cs rest fun o => ∃ a, o = some a ∧ Q a := by
  obtain ⟨a, m, h, ha⟩ := h
  exact ⟨some a, m, by simp only [Parser.maybe, h], a, rfl, ha⟩

theorem Reads.maybe_none (h : Misses p cs) : Reads (maybe p) cs cs (· = none) := by
  obtain ⟨m, h⟩ := h
  exact ⟨none, m, by simp only [Parser.maybe, h], rfl⟩

theorem Reads.expect {item : String} (h : Reads p cs rest Q) :
    Reads (Grammar.expect item p) cs rest Q := by
  obtain ⟨a, m, h, ha⟩ := h
  exact ⟨a, m, by simp only [Grammar.expect, h], ha⟩

/-! ## Repetition -/

/-- `T l` is the text that stands when the items `l` are still to be read. If the parser reads each
item from such a text to the next, and misses at the last, the repetition reads them all. The bound on
the number of items does not show, as each makes the text shorter. -/
theorem Reads.manyWith {p : List α → Parser α} {T : List γ → List Char} {Q : γ → α → Prop}
    {l : List γ}
    (hcons : ∀ before x after earlier, l = before ++ x :: after →
      List.Forall₂ Q before earlier.reverse →
      Reads (p earlier) (T (x :: after)) (T after) (Q x) ∧
        byteCount (T after) < byteCount (T (x :: after)))
    (hnil : ∀ earlier, List.Forall₂ Q l earlier.reverse → Misses (p earlier) (T [])) :
    Reads (manyWith p) (T l) (T []) (List.Forall₂ Q l) := by
  -- the items after those read before, with any bound that exceeds the remaining bytes
  have go : ∀ (after before : List γ) (earlier : List α) (n : Nat), l = before ++ after →
      List.Forall₂ Q before earlier.reverse → byteCount (T after) < n →
      Reads (manyWithin p n earlier) (T after) (T []) (List.Forall₂ Q after) := by
    intro after
    induction after with
    | nil =>
      intro before earlier n hl hbefore hn
      obtain ⟨n, rfl⟩ : ∃ k, n = k + 1 := ⟨n - 1, by omega⟩
      obtain ⟨m, hm⟩ := hnil earlier (by rw [hl, List.append_nil]; exact hbefore)
      exact ⟨[], m, by simp only [manyWithin, hm], .nil⟩
    | cons x after ih =>
      intro before earlier n hl hbefore hn
      obtain ⟨n, rfl⟩ : ∃ k, n = k + 1 := ⟨n - 1, by omega⟩
      obtain ⟨⟨a, m, ha, hQ⟩, hlt⟩ := hcons before x after earlier hl hbefore
      have hbefore' : List.Forall₂ Q (before ++ [x]) (a :: earlier).reverse := by
        rw [List.reverse_cons]
        exact List.rel_append hbefore (.cons hQ .nil)
      obtain ⟨as, m', has, hQs⟩ :=
        ih (before ++ [x]) (a :: earlier) n (by simp [hl]) hbefore' (by omega)
      refine ⟨a :: as, m.join m', ?_, .cons hQ hQs⟩
      have hne : byteCount (T after) ≠ byteCount (T (x :: after)) := by omega
      simp only [manyWithin, ha, has, Cursor.bytes_ofChars, if_neg hne]
  exact go l [] [] _ rfl .nil (Nat.lt_succ_self _)

/-- The same for items that do not depend on the earlier ones. -/
theorem Reads.many {T : List γ → List Char} {Q : γ → α → Prop} {l : List γ}
    (hcons : ∀ x after, x :: after <:+ l → Reads p (T (x :: after)) (T after) (Q x) ∧
      byteCount (T after) < byteCount (T (x :: after)))
    (hnil : Misses p (T [])) :
    Reads (many p) (T l) (T []) (List.Forall₂ Q l) := by
  refine .manyWith (fun before x after _ hl _ => hcons x after ?_) fun _ _ => hnil
  exact ⟨before, hl.symm⟩

theorem Reads.many_nil (h : Misses p cs) : Reads (Parser.many p) cs cs (· = []) := by
  have hmany := Reads.many (p := p) (T := fun _ : List Unit => cs) (Q := fun _ _ => True)
    (l := []) (fun x after hx => absurd hx (by simp)) h
  exact hmany.mono fun as has => List.forall₂_nil_left_iff.1 has

theorem Reads.manyWith_one {p : List α → Parser α} (h : Reads (p []) cs rest Q)
    (hlt : byteCount rest < byteCount cs) (hend : ∀ a, Q a → Misses (p [a]) rest) :
    Reads (Parser.manyWith p) cs rest fun as => ∃ a, as = [a] ∧ Q a := by
  have hmany := Reads.manyWith (p := p) (T := fun l : List Unit => if l = [] then rest else cs)
    (Q := fun _ => Q) (l := [()]) ?_ ?_
  · rw [if_neg (List.cons_ne_nil _ _), if_pos rfl] at hmany
    refine hmany.mono fun as has => ?_
    obtain ⟨a, tail, ha, htail, rfl⟩ := List.forall₂_cons_left_iff.1 has
    rw [List.forall₂_nil_left_iff.1 htail]
    exact ⟨a, rfl, ha⟩
  · intro before x after earlier hx hbefore
    obtain ⟨rfl, rfl⟩ : before = [] ∧ after = [] := by
      simpa [List.singleton_eq_append_iff] using hx
    obtain rfl : earlier = [] := by simpa using hbefore
    rw [if_neg (List.cons_ne_nil _ _), if_pos rfl]
    exact ⟨h, hlt⟩
  · intro earlier hearlier
    obtain ⟨a, tail, ha, htail, hreverse⟩ := List.forall₂_cons_left_iff.1 hearlier
    obtain rfl : earlier = [a] := by
      rw [List.forall₂_nil_left_iff.1 htail] at hreverse
      simpa using congrArg List.reverse hreverse
    rw [if_pos rfl]
    exact hend a ha

/-- A single item, with nothing to go on behind it. -/
theorem Reads.many_one (h : Reads p cs rest Q) (hlt : byteCount rest < byteCount cs)
    (hend : Misses p rest) : Reads (Parser.many p) cs rest fun as => ∃ a, as = [a] ∧ Q a :=
  .manyWith_one h hlt fun _ _ => hend

/-- Items with single separators between them. -/
theorem Reads.sepBy1 {separator : Parser β} {T : List γ → List Char} {Q : γ → α → Prop} {x : γ}
    {l : List γ} (hfirst : Reads p cs (T l) (Q x))
    (hcons : ∀ y after, y :: after <:+ l →
      Reads (separator >>= fun _ => p) (T (y :: after)) (T after) (Q y) ∧
        byteCount (T after) < byteCount (T (y :: after)))
    (hnil : Misses separator (T [])) :
    Reads (sepBy1 p separator) cs (T []) (List.Forall₂ Q (x :: l)) := by
  refine .bind hfirst fun a ha => ?_
  refine .bind (.many hcons hnil.bind) fun as has => ?_
  exact .pure (.cons ha has)

end Parser

end Primer
