import Mathlib.Data.List.TakeWhile
import Primer.Proofs.Parser.Reading

/-!
What every value of a parser satisfies, wherever it is read. `Gives p P` says that `p` ends within
what it was given and that its values have the property `P`; `Advances p` that it reads a character at
least. On these rests the unfolding of recursive parsers: `fix f` counts its depth down from the size
of the text, and as long as `f` reads something before it refers to itself, the count does not show
(`fix_eq`).
-/

namespace Primer.Parser

/-- The parser ends within what it is given, and its values have the property. -/
def Gives (p : Parser α) (P : α → Prop) : Prop :=
  ∀ ⦃i a j m⦄, p i = .done a j m → j.chars <:+ i.chars ∧ P a

/-- The parser reads a character at least. -/
def Advances (p : Parser α) : Prop :=
  ∀ ⦃i a j m⦄, p i = .done a j m → j.chars.length < i.chars.length

variable {p q : Parser α} {f : α → Parser β} {P : α → Prop} {R : β → Prop}

theorem done_of_after {r : Reply α} (h : r.after mark = .done a j m) : ∃ m', r = .done a j m' := by
  cases r with
  | done b k m' =>
    cases h
    exact ⟨m', rfl⟩
  | miss _ | halt _ => cases h

/-- A sequence succeeds only if both of its steps do. -/
theorem done_of_bind (h : (p >>= f) i = .done b k m) :
    ∃ a j m' m'', p i = .done a j m' ∧ f a j = .done b k m'' := by
  simp only [bind_apply, Parser.bind] at h
  split at h
  case h_1 a j m' hp =>
    obtain ⟨m'', hf⟩ := done_of_after h
    exact ⟨a, j, m', m'', hp, hf⟩
  all_goals cases h

theorem done_of_atEnd {i j : Cursor} {u : Unit} {m : Mark} (h : atEnd i = .done u j m) :
    j = i ∧ i.chars = [] := by
  simp only [atEnd] at h
  split at h
  case isTrue hnil =>
    cases h
    exact ⟨rfl, List.isEmpty_iff.1 hnil⟩
  case isFalse => cases h

namespace Gives

theorem mono {P' : α → Prop} (h : Gives p P) (hP : ∀ a, P a → P' a) : Gives p P' := by
  intro i a j m hp
  obtain ⟨hs, ha⟩ := h hp
  exact ⟨hs, hP a ha⟩

/-- In bytes no parser gains anything. -/
theorem bytes_le (h : Gives p P) (hp : p i = .done a j m) : j.bytes ≤ i.bytes := by
  obtain ⟨⟨pre, hpre⟩, -⟩ := h hp
  rw [i.bytes_eq, j.bytes_eq, ← hpre, byteCount_append]
  omega

/-! ## Sequence and choice -/

theorem pure {a : α} (h : P a) : Gives (pure a) P := by
  intro i b j m hp
  rw [pure_apply] at hp
  cases hp
  exact ⟨List.suffix_rfl, h⟩

/-- The second step may use what the first one gives. -/
theorem bind (hp : Gives p P) (hf : ∀ a, P a → Gives (f a) R) : Gives (p >>= f) R := by
  intro i b k m h
  obtain ⟨a, j, m', m'', hpi, hfa⟩ := done_of_bind h
  obtain ⟨hs, ha⟩ := hp hpi
  obtain ⟨hs', hb⟩ := hf a ha hfa
  exact ⟨hs'.trans hs, hb⟩

theorem discard (h : Gives p P) : Gives (discard p) fun _ => True :=
  h.bind fun _ _ => .pure trivial

theorem orElse (hp : Gives p P) (hq : Gives q P) : Gives (p <|> q) P := by
  intro i a j m h
  simp only [orElse_apply, Parser.orElse] at h
  split at h
  · obtain ⟨m', hqi⟩ := done_of_after h
    exact hq hqi
  · exact hp h

theorem choice {ps : List (Parser α)} (h : ∀ p ∈ ps, Gives p P) : Gives (choice ps) P := by
  induction ps with
  | nil => intro i a j m hp; cases hp
  | cons p ps ih =>
    exact (h p List.mem_cons_self).orElse (ih fun q hq => h q (List.mem_cons_of_mem p hq))

/-! ## Primitives -/

theorem here : Gives here fun _ => True := by
  intro i a j m h
  cases h
  exact ⟨List.suffix_rfl, trivial⟩

theorem missAt {i : Cursor} : Gives (missAt i) P := fun _ _ _ _ h => nomatch h

theorem haltAt {i : Cursor} {cause : ReadError.Cause} : Gives (haltAt i cause) P :=
  fun _ _ _ _ h => nomatch h

theorem satisfy {t : Char → Bool} : Gives (satisfy t) (t · = true) := by
  intro i c j m h
  simp only [Parser.satisfy] at h
  split at h
  case h_1 d cs hi =>
    split at h
    case isTrue hd =>
      cases h
      exact ⟨List.drop_suffix _ _, hd⟩
    case isFalse => cases h
  case h_2 => cases h

theorem char {c : Char} : Gives (char c) (· = c) :=
  satisfy.mono fun _ h => beq_iff_eq.1 h

theorem text {s : String} : Gives (text s) fun _ => True := by
  intro i a j m h
  simp only [Parser.text] at h
  split at h
  · cases h
    exact ⟨List.drop_suffix _ _, trivial⟩
  · cases h

theorem takeWhile {t : Char → Bool} : Gives (takeWhile t) fun cs => ∀ c ∈ cs, t c = true := by
  intro i a j m h
  cases h
  exact ⟨List.drop_suffix _ _, fun c hc => List.mem_takeWhile_imp hc⟩

theorem takeWhile1 {t : Char → Bool} :
    Gives (takeWhile1 t) fun cs => cs ≠ [] ∧ ∀ c ∈ cs, t c = true := by
  intro i a j m h
  simp only [Parser.takeWhile1] at h
  split at h
  · cases h
  case isFalse hne =>
    cases h
    exact ⟨List.drop_suffix _ _, fun h => hne (by simp [h]), fun c hc => List.mem_takeWhile_imp hc⟩

theorem skipUntil {s : String} : Gives (skipUntil s) fun _ => True := by
  intro i a j m h
  simp only [Parser.skipUntil] at h
  split at h
  · cases h
    exact ⟨List.drop_suffix _ _, trivial⟩
  · cases h

theorem atEnd : Gives atEnd fun _ => True := by
  intro i a j m h
  obtain ⟨rfl, -⟩ := done_of_atEnd h
  exact ⟨List.suffix_rfl, trivial⟩

/-! ## Look-ahead and options -/

theorem lookAhead (h : Gives p P) : Gives (lookAhead p) P := by
  intro i a j m hp
  simp only [Parser.lookAhead] at hp
  split at hp
  case h_1 hpi =>
    cases hp
    exact ⟨List.suffix_rfl, (h hpi).2⟩
  case h_2 hne => exact absurd hp (hne a j m)

theorem notFollowedBy : Gives (notFollowedBy p) fun _ => True := by
  intro i a j m h
  simp only [Parser.notFollowedBy] at h
  split at h
  · cases h
  · cases h
    exact ⟨List.suffix_rfl, trivial⟩
  · cases h

theorem maybe (h : Gives p P) : Gives (maybe p) fun o => ∀ a, o = some a → P a := by
  intro i o j m hp
  simp only [Parser.maybe] at hp
  split at hp
  case h_1 a j' m' hpi =>
    cases hp
    obtain ⟨hs, ha⟩ := h hpi
    exact ⟨hs, fun b hb => by cases hb; exact ha⟩
  case h_2 =>
    cases hp
    exact ⟨List.suffix_rfl, fun b hb => by cases hb⟩
  case h_3 => cases hp

theorem expect {item : String} (h : Gives p P) : Gives (Grammar.expect item p) P := by
  intro i a j m hp
  simp only [Grammar.expect] at hp
  split at hp
  · cases hp
  · exact h hp

/-! ## Repetition -/

/-- What holds of no items and is kept by each further item holds of all of them. -/
theorem manyWith {p : List α → Parser α} {I : List α → Prop} (hnil : I [])
    (hcons : ∀ earlier, I earlier → Gives (p earlier) fun a => I (a :: earlier)) :
    Gives (manyWith p) fun as => I as.reverse := by
  have go : ∀ n earlier, I earlier →
      Gives (manyWithin p n earlier) fun as => I (as.reverse ++ earlier) := by
    intro n
    induction n with
    | zero => intro earlier _ i as j m h; cases h
    | succ n ih =>
      intro earlier hinv i as j m h
      simp only [manyWithin] at h
      split at h
      case h_1 a k m' hpi =>
        obtain ⟨hs, ha⟩ := hcons earlier hinv hpi
        split at h
        · cases h
        · cases hrec : manyWithin p n (a :: earlier) k with
          | done as' k' m'' =>
            rw [hrec] at h
            cases h
            obtain ⟨hs', has⟩ := ih (a :: earlier) ha hrec
            refine ⟨hs'.trans hs, ?_⟩
            simpa [List.append_assoc] using has
          | miss _ | halt _ => rw [hrec] at h; cases h
      case h_2 =>
        cases h
        exact ⟨List.suffix_rfl, hinv⟩
      case h_3 => cases h
  intro i as j m h
  obtain ⟨hs, has⟩ := go _ [] hnil h
  exact ⟨hs, by simpa using has⟩

/-- The items of a repetition have the property of the parser for one item. -/
theorem many (h : Gives p P) : Gives (many p) fun as => ∀ a ∈ as, P a := by
  have hmany : Gives (Parser.manyWith fun _ => p) fun as => ∀ a ∈ as.reverse, P a :=
    manyWith (I := fun as => ∀ a ∈ as, P a) (by simp) fun earlier he =>
      h.mono fun a ha => by simpa [ha] using he
  exact hmany.mono fun as has a ha => has a (List.mem_reverse.2 ha)

theorem sepBy1 {separator : Parser β} (h : Gives p P) (hsep : Gives separator R) :
    Gives (sepBy1 p separator) fun as => as ≠ [] ∧ ∀ a ∈ as, P a := by
  refine h.bind fun a ha => ?_
  refine (many (hsep.bind fun _ _ => h)).bind fun as has => ?_
  exact .pure ⟨List.cons_ne_nil a as, by simpa [ha] using has⟩

/-- What `f` keeps holds of the parser that it defines. -/
theorem fixWithin {f : Parser α → Parser α} (hf : ∀ p, Gives p P → Gives (f p) P) (n : Nat) :
    Gives (fixWithin f n) P := by
  induction n with
  | zero => intro i a j m h; cases h
  | succ n ih => exact hf _ ih

theorem fix {f : Parser α → Parser α} (hf : ∀ p, Gives p P → Gives (f p) P) : Gives (fix f) P :=
  fun _ _ _ _ h => fixWithin hf _ h

end Gives

/-! ## Progress -/

namespace Advances

/-- A parser that advances leaves fewer bytes. -/
theorem bytes_lt (h : Advances p) (hg : Gives p P) (hp : p i = .done a j m) :
    j.bytes < i.bytes := by
  rw [i.bytes_eq, j.bytes_eq]
  exact byteCount_lt_of_suffix (hg hp).1 (h hp)

theorem satisfy {t : Char → Bool} : Advances (satisfy t) := by
  intro i c j m h
  simp only [Parser.satisfy] at h
  split at h
  case h_1 d cs hi =>
    split at h
    · cases h
      simp [hi]
    · cases h
  case h_2 => cases h

/-- Only a text that is not empty makes progress. -/
theorem text {s : String} (hs : s ≠ "") : Advances (text s) := by
  intro i a j m h
  simp only [Parser.text] at h
  split at h
  case isTrue hpre =>
    cases h
    obtain ⟨tail, htail⟩ := List.isPrefixOf_iff_prefix.1 hpre
    have hpos : 0 < s.toList.length := by
      rw [List.length_pos_iff]
      exact fun hnil => hs (String.toList_eq_nil_iff.1 hnil)
    rw [Cursor.chars_skip, ← htail, List.drop_left, List.length_append]
    omega
  · cases h

theorem bind (h : Advances p) (hf : ∀ a, Gives (f a) R) : Advances (p >>= f) := by
  intro i b k m hp
  obtain ⟨a, j, m', m'', hpi, hfa⟩ := done_of_bind hp
  exact Nat.lt_of_le_of_lt (hf a hfa).1.length_le (h hpi)

theorem discard (h : Advances p) : Advances (discard p) :=
  h.bind (R := fun _ => True) fun _ => .pure trivial

end Advances

/-! ## Unfolding -/

/-- The two parsers answer alike where fewer than `n` bytes remain. -/
def Near (n : Nat) (p q : Parser α) : Prop := ∀ i : Cursor, i.bytes < n → p i = q i

namespace Near

variable {n : Nat} {p' q' : Parser α} {g : α → Parser β}

theorem rfl : Near n p p := fun _ _ => Eq.refl _

theorem mono {k : Nat} (h : Near n p q) (hk : k ≤ n) : Near k p q :=
  fun i hi => h i (Nat.lt_of_lt_of_le hi hk)

theorem bind (h : Near n p q) (hp : Gives p P) (hf : ∀ a, Near n (f a) (g a)) :
    Near n (p >>= f) (q >>= g) := by
  intro i hi
  simp only [bind_apply, Parser.bind, ← h i hi]
  split
  case h_1 a j m hpi => rw [hf a j (Nat.lt_of_le_of_lt (hp.bytes_le hpi) hi)]
  all_goals exact Eq.refl _

/-- After something has been read, it is enough to agree on the texts that are shorter still. -/
theorem bind_of_advances (h : Near (n + 1) p q) (hp : Gives p P) (ha : Advances p)
    (hf : ∀ a, Near n (f a) (g a)) : Near (n + 1) (p >>= f) (q >>= g) := by
  intro i hi
  simp only [bind_apply, Parser.bind, ← h i hi]
  split
  case h_1 a j m hpi => rw [hf a j (by have := ha.bytes_lt hp hpi; omega)]
  all_goals exact Eq.refl _

theorem orElse (hp : Near n p p') (hq : Near n q q') : Near n (p <|> q) (p' <|> q') := by
  intro i hi
  simp only [orElse_apply, Parser.orElse, hp i hi, hq i hi]

theorem maybe (h : Near n p q) : Near n (maybe p) (maybe q) := by
  intro i hi
  simp only [Parser.maybe, h i hi]

theorem expect {item : String} (h : Near n p q) :
    Near n (Grammar.expect item p) (Grammar.expect item q) := by
  intro i hi
  simp only [Grammar.expect, h i hi]

/-- Both repetitions take the same number of steps, as each item is read alike. -/
theorem manyWithin (h : Near n p q) (hp : Gives p P) (k : Nat) (earlier : List α) :
    Near n (manyWithin (fun _ => p) k earlier) (manyWithin (fun _ => q) k earlier) := by
  induction k generalizing earlier with
  | zero => exact rfl
  | succ k ih =>
    intro i hi
    simp only [Parser.manyWithin, ← h i hi]
    split
    case h_1 a j m hpi =>
      rw [ih (a :: earlier) j (Nat.lt_of_le_of_lt (hp.bytes_le hpi) hi)]
    all_goals exact Eq.refl _

theorem many (h : Near n p q) (hp : Gives p P) : Near n (many p) (many q) :=
  fun i hi => h.manyWithin hp (i.bytes + 1) [] i hi

theorem sepBy1 {separator : Parser β} (h : Near n p q) (hp : Gives p P) (hsep : Gives separator R) :
    Near n (sepBy1 p separator) (sepBy1 q separator) := by
  refine h.bind hp fun a => ?_
  have hitem : Gives (separator >>= fun _ => p) P := hsep.bind fun _ _ => hp
  exact .bind (many (.bind rfl hsep fun _ => h) hitem) (.many hitem) fun _ => rfl

end Near

/-- Whether two bounds on the depth are enough does not show in the answer. -/
theorem fixWithin_near {f : Parser α → Parser α} (hgives : ∀ p, Gives p P → Gives (f p) P)
    (hnear : ∀ n p q, Gives p P → Gives q P → Near n p q → Near (n + 1) (f p) (f q)) (n k : Nat) :
    Near n (fixWithin f n) (fixWithin f (n + k)) := by
  induction n with
  | zero => exact fun i hi => absurd hi (Nat.not_lt_zero _)
  | succ n ih =>
    have h := hnear n _ _ (.fixWithin hgives n) (.fixWithin hgives (n + k)) ih
    intro i hi
    rw [Nat.add_right_comm]
    exact h i hi

/-- A parser that reads something before it refers to itself is what its definition says. -/
theorem fix_eq {f : Parser α → Parser α} (hgives : ∀ p, Gives p P → Gives (f p) P)
    (hnear : ∀ n p q, Gives p P → Gives q P → Near n p q → Near (n + 1) (f p) (f q)) :
    fix f = f (fix f) := by
  funext i
  have h : Near i.bytes (fixWithin f i.bytes) (fix f) := by
    intro j hj
    obtain ⟨k, hk⟩ : ∃ k, i.bytes = (j.bytes + 1) + k := ⟨i.bytes - (j.bytes + 1), by omega⟩
    rw [hk, ← fixWithin_near hgives hnear (j.bytes + 1) k j (Nat.lt_succ_self _)]
    rfl
  exact hnear i.bytes _ _ (.fixWithin hgives _) (.fix hgives) h i (Nat.lt_succ_self _)

end Primer.Parser
