import Primer.Proofs.Parser.Reading

/-!
Two parsers side by side, each on a text of its own. `Parallel w n d A p q R B` says that from places
which `A` relates the parsers `p` and `q` answer alike: both read something, `d` bytes at least, with
values that `R` relates, up to places that `B` relates; or both miss; or both halt for the same cause
at places that correspond. The second may also halt alone if the comparison `w` allows for that. The
bound `n` is on what remains of the first text, so that recursive parsers can be compared by induction
on it.
-/

namespace Primer.Cursor

variable {i : Cursor} {c : Char}

@[simp] theorem skip_zero : i.skip 0 = i := ext rfl

theorem skip_skip (m n : Nat) : (i.skip m).skip n = i.skip (m + n) :=
  ext (List.drop_drop)

theorem cons_chars_skip (h : i.chars.head? = some c) : c :: (i.skip 1).chars = i.chars := by
  obtain ⟨cs, hi⟩ := List.head?_eq_some_iff.1 h
  simp [hi]

theorem cons_prefix_chars {l : List Char} :
    c :: l <+: i.chars ↔ i.chars.head? = some c ∧ l <+: (i.skip 1).chars := by
  cases hi : i.chars with
  | nil => simp
  | cons d cs => simp [hi, List.cons_prefix_cons, eq_comm]

theorem bytes_skip_le (i : Cursor) (n : Nat) : (i.skip n).bytes ≤ i.bytes := Nat.sub_le _ _

theorem bytes_skip_lt {n : Nat} (hn : 0 < n) (h : i.chars ≠ []) :
    (i.skip n).bytes + 1 ≤ i.bytes := by
  rw [Cursor.bytes_eq, Cursor.bytes_eq]
  refine byteCount_lt_of_suffix (List.drop_suffix n i.chars) ?_
  have hpos := List.length_pos_iff.2 h
  rw [chars_skip, List.length_drop]
  omega

theorem bytes_skip_one_lt (h : i.chars.head? = some c) : (i.skip 1).bytes + 1 ≤ i.bytes :=
  bytes_skip_lt Nat.one_pos (List.ne_nil_of_mem (List.mem_of_head? h))

end Primer.Cursor

namespace Primer.Parser

theorem satisfy_of_head {t : Char → Bool} {i : Cursor} {c : Char} (hc : i.chars.head? = some c)
    (ht : t c = true) : satisfy t i = .done c (i.skip 1) none := by
  obtain ⟨cs, hi⟩ := List.head?_eq_some_iff.1 hc
  simp [satisfy, hi, ht]

theorem satisfy_of_not {t : Char → Bool} {i : Cursor}
    (h : ¬ ∃ c, i.chars.head? = some c ∧ t c = true) : satisfy t i = .miss (some i.bytes) := by
  cases hi : i.chars with
  | nil => simp [satisfy, hi, missAt]
  | cons c cs =>
    have hc : ¬ t c = true := fun ht => h ⟨c, by simp [hi], ht⟩
    simp [satisfy, hi, missAt, hc]

theorem takeWhile_of_head {t : Char → Bool} {cs : List Char} (h : ∀ c ∈ cs.head?, ¬ t c = true) :
    cs.takeWhile t = [] := by
  cases cs with
  | nil => rfl
  | cons c cs => exact List.takeWhile_cons_of_neg (h c rfl)

theorem takeWhile1_apply (t : Char → Bool) (i : Cursor) : takeWhile1 t i =
    (do let c ← satisfy t; let cs ← takeWhile t; return c :: cs : Parser (List Char)) i := by
  cases hi : i.chars with
  | nil => simp [takeWhile1, bind_apply, Parser.bind, satisfy, hi, missAt]
  | cons c cs =>
    by_cases hc : t c = true
    · simp [takeWhile1, bind_apply, Parser.bind, satisfy, takeWhile, hi, hc, pure_apply, Reply.after,
        Cursor.skip_skip, Nat.add_comm, Mark.join]
    · simp [takeWhile1, bind_apply, Parser.bind, satisfy, hi, hc, missAt]

/-- What is compared of the errors of two readings. -/
structure Comparison where
  /-- The places where errors stand. -/
  Place : Cursor → Cursor → Prop
  /-- Whether the second reading may break off where the first does not. -/
  Lost : Prop
  /-- Whether the second text may be at its end where the first goes on. -/
  Short : Prop := False

/-- The replies correspond. -/
inductive Comparison.Match (w : Comparison) (R : α → β → Prop) (B : Cursor → Cursor → Prop) :
    Reply α → Reply β → Prop where
  | done (value : R a b) (rest : B i j) : w.Match R B (.done a i m) (.done b j m')
  | miss : w.Match R B (.miss m) (.miss m')
  | halt (place : w.Place i j) : w.Match R B (.halt ⟨cause, i.position⟩) (.halt ⟨cause, j.position⟩)
  | lost (lost : w.Lost) : w.Match R B r (.halt e)

namespace Comparison.Match

variable {w : Comparison} {R R' : α → β → Prop} {B B' : Cursor → Cursor → Prop}

theorem mono {r : Reply α} {r' : Reply β} (h : w.Match R B r r') (hR : ∀ a b, R a b → R' a b)
    (hB : ∀ i j, B i j → B' i j) : w.Match R' B' r r' := by
  cases h with
  | done value rest => exact .done (hR _ _ value) (hB _ _ rest)
  | miss => exact .miss
  | halt place => exact .halt place
  | lost lost => exact .lost lost

theorem after {r : Reply α} {r' : Reply β} (h : w.Match R B r r') (m m' : Mark) :
    w.Match R B (r.after m) (r'.after m') := by
  cases h with
  | done value rest => exact .done value rest
  | miss => exact .miss
  | halt place => exact .halt place
  | lost lost => exact .lost lost

section
variable {p : Parser α} {q : Parser β} {i j : Cursor}

theorem of_reads {Q : α → Prop} {Q' : β → Prop} {rest rest' : List Char}
    (hp : Reads p i.chars rest Q) (hq : Reads q j.chars rest' Q')
    (hR : ∀ a b, Q a → Q' b → R a b) (hB : B (.ofChars rest) (.ofChars rest')) :
    w.Match R B (p i) (q j) := by
  obtain ⟨a, m, hp, ha⟩ := hp
  obtain ⟨b, m', hq, hb⟩ := hq
  rw [Cursor.ofChars_chars] at hp hq
  rw [hp, hq]
  exact .done (hR a b ha hb) hB

theorem of_misses (hp : Misses p i.chars) (hq : Misses q j.chars) : w.Match R B (p i) (q j) := by
  obtain ⟨m, hp⟩ := hp
  obtain ⟨m', hq⟩ := hq
  rw [Cursor.ofChars_chars] at hp hq
  rw [hp, hq]
  exact .miss

end

end Comparison.Match

/-- What is reached from `i` and `j` after at least `d` bytes of each, by places that `B` relates. -/
def Beyond (d : Nat) (B : Cursor → Cursor → Prop) (i j i' j' : Cursor) : Prop :=
  B i' j' ∧ i'.bytes + d ≤ i.bytes ∧ j'.bytes + d ≤ j.bytes

/-- The parsers answer alike where less than `n` bytes remain of the first text. -/
def Parallel (w : Comparison) (n d : Nat) (A : Cursor → Cursor → Prop) (p : Parser α) (q : Parser β)
    (R : α → β → Prop) (B : Cursor → Cursor → Prop) : Prop :=
  ∀ ⦃i j⦄, i.bytes < n → A i j → w.Match R (Beyond d B i j) (p i) (q j)

namespace Parallel

variable {w : Comparison} {n d : Nat} {A B C : Cursor → Cursor → Prop}
variable {p p' : Parser α} {q q' : Parser β} {R : α → β → Prop}
variable {f : α → Parser γ} {g : β → Parser δ} {S : γ → δ → Prop}

theorem mono {R' : α → β → Prop} {A' B' : Cursor → Cursor → Prop} (h : Parallel w n d A p q R B)
    (hA : ∀ i j, A' i j → A i j) (hR : ∀ a b, R a b → R' a b) (hB : ∀ i j, B i j → B' i j) :
    Parallel w n d A' p q R' B' :=
  fun i j hi hij => (h hi (hA i j hij)).mono hR fun i' j' hrest => ⟨hB i' j' hrest.1, hrest.2⟩

theorem start {A' : Cursor → Cursor → Prop} (h : Parallel w n d A p q R B)
    (hA : ∀ i j, A' i j → A i j) : Parallel w n d A' p q R B :=
  h.mono hA (fun _ _ hab => hab) fun _ _ hij => hij

theorem rest {B' : Cursor → Cursor → Prop} (h : Parallel w n d A p q R B)
    (hB : ∀ i j, B i j → B' i j) : Parallel w n d A p q R B' :=
  h.mono (fun _ _ hij => hij) (fun _ _ hab => hab) hB

theorem values {R' : α → β → Prop} (h : Parallel w n d A p q R B) (hR : ∀ a b, R a b → R' a b) :
    Parallel w n d A p q R' B :=
  h.mono (fun _ _ hij => hij) hR fun _ _ hij => hij

theorem shorter {k : Nat} (h : Parallel w n d A p q R B) (hk : k ≤ n) : Parallel w k d A p q R B :=
  fun _ _ hi => h (Nat.lt_of_lt_of_le hi hk)

theorem less (h : Parallel w n d A p q R B) : Parallel w n 0 A p q R B := by
  intro i j hi hij
  refine (h hi hij).mono (fun _ _ hab => hab) fun i' j' hrest => ⟨hrest.1, ?_, ?_⟩
  · exact Nat.le_of_add_right_le hrest.2.1
  · exact Nat.le_of_add_right_le hrest.2.2

theorem zero : Parallel w 0 d A p q R B := fun _ _ hi => absurd hi (Nat.not_lt_zero _)

/-! ## Sequence and choice -/

theorem pure {a : α} {b : β} (h : R a b) : Parallel w n 0 A (pure a) (pure b) R A :=
  fun _ _ _ hij => .done h ⟨hij, Nat.le_refl _, Nat.le_refl _⟩

/-- One parser after the other. After the first has read `d` bytes, it is enough that the second
answers alike on texts that are shorter by so much. -/
theorem bind_of_le {k e : Nat} (hk : k ≤ n + d) (h : Parallel w k d A p q R B)
    (hf : ∀ a b, R a b → Parallel w n e B (f a) (g b) S C) :
    Parallel w k (d + e) A (p >>= f) (q >>= g) S C := by
  intro i j hi hij
  have hpq := h hi hij
  simp only [bind_apply, Parser.bind]
  generalize p i = r at hpq
  generalize q j = r' at hpq
  cases hpq with
  | @done a b i' j' m m' value rest =>
    obtain ⟨hB, hi', hj'⟩ := rest
    -- fewer than `n` bytes remain, as `d` of fewer than `n + d` have been read
    refine ((hf a b value (i := i') (by omega) hB).mono (fun _ _ hab => hab) ?_).after m m'
    rintro k l ⟨hC, hk, hl⟩
    exact ⟨hC, by omega, by omega⟩
  | miss => exact .miss
  | halt place => exact .halt place
  | lost lost => exact .lost lost

theorem bind (h : Parallel w n 0 A p q R B)
    (hf : ∀ a b, R a b → Parallel w n d B (f a) (g b) S C) :
    Parallel w n d A (p >>= f) (q >>= g) S C :=
  Nat.zero_add d ▸ bind_of_le (Nat.le_refl n) h hf

/-- What the first parser reads is enough. -/
theorem bind_left (h : Parallel w n d A p q R B)
    (hf : ∀ a b, R a b → Parallel w n 0 B (f a) (g b) S C) :
    Parallel w n d A (p >>= f) (q >>= g) S C := bind_of_le (Nat.le_add_right n d) h hf

/-- After something has been read, it is enough to answer alike on shorter texts. -/
theorem bind_shorter (h : Parallel w (n + 1) 1 A p q R B)
    (hf : ∀ a b, R a b → Parallel w n 0 B (f a) (g b) S C) :
    Parallel w (n + 1) 1 A (p >>= f) (q >>= g) S C := bind_of_le (Nat.le_refl _) h hf

theorem discard (h : Parallel w n d A p q R B) :
    Parallel w n d A (discard p) (discard q) (fun _ _ => True) B :=
  h.bind_left fun _ _ _ => .pure trivial

theorem orElse (hp : Parallel w n d A p q R B) (hq : Parallel w n d A p' q' R B) :
    Parallel w n d A (p <|> p') (q <|> q') R B := by
  intro i j hi hij
  have h := hp hi hij
  simp only [orElse_apply, Parser.orElse]
  generalize p i = r at h
  generalize q j = r' at h
  cases h with
  | done value rest => exact .done value rest
  | miss => exact (hq hi hij).after _ _
  | halt place => exact .halt place
  | lost lost => exact .lost lost

theorem missAt {k l : Cursor} : Parallel w n d A (missAt k) (missAt l) R B := fun _ _ _ _ => .miss

theorem choice {ps : List (Parser α)} {R : α → α → Prop}
    (h : ∀ p ∈ ps, Parallel w n d A p p R B) : Parallel w n d A (choice ps) (choice ps) R B := by
  induction ps with
  | nil => exact fun _ _ _ _ => .miss
  | cons p ps ih =>
    exact (h p List.mem_cons_self).orElse (ih fun q hq => h q (List.mem_cons_of_mem p hq))

/-! ## Places, look-ahead and options -/

theorem here : Parallel w n 0 A here here A A :=
  fun _ _ _ hij => .done hij ⟨hij, Nat.le_refl _, Nat.le_refl _⟩

theorem haltAt {k l : Cursor} {cause : ReadError.Cause} (h : w.Place k l) :
    Parallel w n d A (haltAt k cause) (haltAt l cause) R B := fun _ _ _ _ => .halt h

theorem lookAhead (h : Parallel w n d A p q R B) :
    Parallel w n 0 A (lookAhead p) (lookAhead q) R A := by
  intro i j hi hij
  have hpq := h hi hij
  simp only [Parser.lookAhead]
  generalize p i = r at hpq
  generalize q j = r' at hpq
  cases hpq with
  | done value rest => exact .done value ⟨hij, Nat.le_refl _, Nat.le_refl _⟩
  | miss => exact .miss
  | halt place => exact .halt place
  | lost lost => exact .lost lost

theorem notFollowedBy (h : Parallel w n d A p q R B) :
    Parallel w n 0 A (notFollowedBy p) (notFollowedBy q) (fun _ _ => True) A := by
  intro i j hi hij
  have hpq := h hi hij
  simp only [Parser.notFollowedBy]
  generalize p i = r at hpq
  generalize q j = r' at hpq
  cases hpq with
  | done value rest => exact .miss
  | miss => exact .done trivial ⟨hij, Nat.le_refl _, Nat.le_refl _⟩
  | halt place => exact .halt place
  | lost lost => exact .lost lost

theorem maybe (h : Parallel w n d A p q R B) (hA : ∀ i j, A i j → B i j) :
    Parallel w n 0 A (maybe p) (maybe q) (Option.Rel R) B := by
  intro i j hi hij
  have hpq := h.less hi hij
  simp only [Parser.maybe]
  generalize p i = r at hpq
  generalize q j = r' at hpq
  cases hpq with
  | done value rest => exact .done (.some value) rest
  | miss => exact .done .none ⟨hA _ _ hij, Nat.le_refl _, Nat.le_refl _⟩
  | halt place => exact .halt place
  | lost lost => exact .lost lost

theorem expect {item : String} (h : Parallel w n d A p q R B)
    (hplace : ∀ i j, A i j → w.Place (Grammar.behindSpace i) (Grammar.behindSpace j)) :
    Parallel w n d A (Grammar.expect item p) (Grammar.expect item q) R B := by
  intro i j hi hij
  have hpq := h hi hij
  simp only [Grammar.expect]
  generalize p i = r at hpq
  generalize q j = r' at hpq
  cases hpq with
  | done value rest => exact .done value rest
  | miss => exact .halt (hplace i j hij)
  | halt place => exact .halt place
  | lost lost => exact .lost lost

/-! ## Characters -/

/-- The characters with the property stand at the same places in both texts, and `B` relates what
follows one of them. -/
structure Steps (t : Char → Bool) (A B : Cursor → Cursor → Prop) : Prop where
  head : A i j → t c = true → (i.chars.head? = some c ↔ j.chars.head? = some c)
  skip : A i j → t c = true → i.chars.head? = some c → B (i.skip 1) (j.skip 1)

section
variable {t : Char → Bool} {i j : Cursor}

theorem Steps.of_imp {t' : Char → Bool} (h : Steps t A B) (ht : ∀ c, t' c = true → t c = true) :
    Steps t' A B where
  head hij hc := h.head hij (ht _ hc)
  skip hij hc := h.skip hij (ht _ hc)

/-- A run of such characters stands in both texts or in neither. -/
theorem Steps.run (h : Steps t A B) (hBA : ∀ i j, B i j → A i j) {l : List Char}
    (hl : ∀ c ∈ l, t c = true) (hij : A i j) :
    (l <+: i.chars ↔ l <+: j.chars) ∧
      (l <+: i.chars → l ≠ [] → B (i.skip l.length) (j.skip l.length)) := by
  induction l generalizing i j with
  | nil => simp
  | cons c l ih =>
    obtain ⟨hc, hl⟩ := List.forall_mem_cons.1 hl
    rw [Cursor.cons_prefix_chars, Cursor.cons_prefix_chars, ← h.head hij hc]
    constructor
    · exact and_congr_right fun hi => (ih hl (hBA _ _ (h.skip hij hc hi))).1
    · rintro ⟨hi, hrest⟩ -
      have hB := h.skip hij hc hi
      rw [List.length_cons, Nat.add_comm, ← Cursor.skip_skip, ← Cursor.skip_skip]
      by_cases hnil : l = []
      · simpa [hnil] using hB
      · exact (ih hl (hBA _ _ hB)).2 hrest hnil

/-- The longest run of such characters is the same in both texts. -/
theorem Steps.takeWhile_eq (h : Steps t A A) {cs : List Char} (hi : i.chars = cs) (hij : A i j) :
    cs.takeWhile t = j.chars.takeWhile t ∧
      A (i.skip (cs.takeWhile t).length) (j.skip (cs.takeWhile t).length) := by
  induction cs generalizing i j with
  | nil =>
    have hj : ∀ c ∈ j.chars.head?, ¬ t c = true := fun c hc ht =>
      absurd ((h.head hij ht).2 hc) (by simp [hi])
    rw [takeWhile_of_head hj]
    simpa using hij
  | cons c cs ih =>
    by_cases ht : t c = true
    · have hc : i.chars.head? = some c := by rw [hi]; rfl
      obtain ⟨htaken, hrest⟩ := ih (i := i.skip 1) (by simp [hi]) (h.skip hij ht hc)
      rw [← Cursor.cons_chars_skip ((h.head hij ht).1 hc), List.takeWhile_cons_of_pos ht,
        List.takeWhile_cons_of_pos ht, ← htaken, List.length_cons, Nat.add_comm,
        ← Cursor.skip_skip, ← Cursor.skip_skip]
      exact ⟨rfl, hrest⟩
    · have hj : ∀ d ∈ j.chars.head?, ¬ t d = true := by
        intro d hd hdt
        have hd := (h.head hij hdt).2 hd
        rw [hi] at hd
        cases hd
        exact ht hdt
      rw [takeWhile_of_head hj, List.takeWhile_cons_of_neg ht]
      simpa using hij

theorem satisfy (h : Steps t A B) : Parallel w n 1 A (satisfy t) (satisfy t) Eq B := by
  intro i j _ hij
  by_cases hi : ∃ c, i.chars.head? = some c ∧ t c = true
  · obtain ⟨c, hc, ht⟩ := hi
    have hc' := (h.head hij ht).1 hc
    rw [satisfy_of_head hc ht, satisfy_of_head hc' ht]
    exact .done rfl ⟨h.skip hij ht hc, Cursor.bytes_skip_one_lt hc, Cursor.bytes_skip_one_lt hc'⟩
  · have hj : ¬ ∃ c, j.chars.head? = some c ∧ t c = true :=
      fun ⟨c, hc, ht⟩ => hi ⟨c, (h.head hij ht).2 hc, ht⟩
    rw [satisfy_of_not hi, satisfy_of_not hj]
    exact .miss

theorem char {c : Char} (h : Steps (· == c) A B) : Parallel w n 1 A (char c) (char c) Eq B :=
  satisfy h

/-- A text of characters that stand at the same places in both texts. -/
theorem text {s : String} (h : Steps t A B) (hBA : ∀ i j, B i j → A i j)
    (hs : ∀ c ∈ s.toList, t c = true) (hne : s ≠ "") :
    Parallel w n 1 A (text s) (text s) (fun _ _ => True) B := by
  intro i j _ hij
  obtain ⟨hiff, hrest⟩ := h.run hBA hs hij
  have hne : s.toList ≠ [] := fun hs => hne (String.toList_eq_nil_iff.1 hs)
  by_cases hi : s.toList <+: i.chars
  · have hj := hiff.1 hi
    simp only [Parser.text, List.isPrefixOf_iff_prefix, hi, hj, if_true]
    have hlt {k : Cursor} (hk : s.toList <+: k.chars) : (k.skip s.toList.length).bytes + 1 ≤ k.bytes :=
      Cursor.bytes_skip_lt (List.length_pos_iff.2 hne) (hk.ne_nil hne)
    exact .done trivial ⟨hrest hi hne, hlt hi, hlt hj⟩
  · have hj : ¬ s.toList <+: j.chars := fun hj => hi (hiff.2 hj)
    simp only [Parser.text, List.isPrefixOf_iff_prefix, hi, hj, if_false]
    exact .miss

theorem takeWhile (h : Steps t A A) :
    Parallel w n 0 A (takeWhile t) (takeWhile t) Eq A := by
  intro i j _ hij
  obtain ⟨htaken, hrest⟩ := h.takeWhile_eq rfl hij
  simp only [Parser.takeWhile, ← htaken]
  exact .done rfl ⟨hrest, Cursor.bytes_skip_le i _, Cursor.bytes_skip_le j _⟩

theorem takeWhile1 (h : Steps t A B) (hBA : ∀ i j, B i j → A i j) :
    Parallel w n 1 A (takeWhile1 t) (takeWhile1 t) Eq B := by
  have hBB : Steps t B B := ⟨fun hij => h.head (hBA _ _ hij), fun hij => h.skip (hBA _ _ hij)⟩
  have hbind : Parallel w n 1 A _ _ Eq B := (satisfy h).bind_left fun c d hcd =>
    (takeWhile hBB).bind fun cs ds hcs => .pure (congrArg₂ List.cons hcd hcs)
  intro i j hi hij
  rw [takeWhile1_apply, takeWhile1_apply]
  exact hbind hi hij

end

/-! ## Repetition -/

/-- Items that answer alike, one after the other. Both repetitions bound their items by the size of
their own text, which does not show as every item reads something. -/
theorem manyWithin {p : List α → Parser α} {q : List β → Parser β}
    (h : ∀ as bs, List.Forall₂ R as bs → Parallel w n 1 A (p as) (q bs) R A) {k l : Nat}
    {as : List α} {bs : List β} {i j : Cursor} (hk : i.bytes < k) (hl : j.bytes < l)
    (hi : i.bytes < n) (hij : A i j) (hearlier : List.Forall₂ R as bs) :
    w.Match (List.Forall₂ R) (Beyond 0 A i j) (manyWithin p k as i) (manyWithin q l bs j) := by
  induction k generalizing l as bs i j with
  | zero => exact absurd hk (Nat.not_lt_zero _)
  | succ k ih =>
    obtain ⟨l, rfl⟩ : ∃ l', l = l' + 1 := ⟨l - 1, by omega⟩
    have hitem := h as bs hearlier hi hij
    simp only [Parser.manyWithin]
    generalize p as i = r at hitem
    generalize q bs j = r' at hitem
    cases hitem with
    | @done a b i' j' _ _ value rest =>
      obtain ⟨hA, hi', hj'⟩ := rest
      have hrest := ih (l := l) (i := i') (j := j') (by omega) (by omega) (by omega) hA
        (.cons value hearlier)
      have hne : i'.bytes ≠ i.bytes := by omega
      have hne' : j'.bytes ≠ j.bytes := by omega
      simp only [hne, hne', if_false]
      generalize Parser.manyWithin p k (a :: as) i' = s at hrest
      generalize Parser.manyWithin q l (b :: bs) j' = s' at hrest
      cases hrest with
      | done values rest =>
        obtain ⟨hA, hk, hl⟩ := rest
        exact .done (.cons value values) ⟨hA, by omega, by omega⟩
      | miss => exact .miss
      | halt place => exact .halt place
      | lost lost => exact .lost lost
    | miss => exact .done .nil ⟨hij, Nat.le_refl _, Nat.le_refl _⟩
    | halt place => exact .halt place
    | lost lost => exact .lost lost

theorem manyWith {p : List α → Parser α} {q : List β → Parser β}
    (h : ∀ as bs, List.Forall₂ R as bs → Parallel w n 1 A (p as) (q bs) R A) :
    Parallel w n 0 A (manyWith p) (manyWith q) (List.Forall₂ R) A :=
  fun _ _ hi hij => manyWithin h (Nat.lt_succ_self _) (Nat.lt_succ_self _) hi hij .nil

theorem many (h : Parallel w n 1 A p q R A) :
    Parallel w n 0 A (many p) (many q) (List.Forall₂ R) A :=
  manyWith fun _ _ _ => h

theorem sepBy1 {separator : Parser γ} {separator' : Parser δ} (h : Parallel w n d A p q R B)
    (hsep : Parallel w n 1 B separator separator' S A) :
    Parallel w n d A (sepBy1 p separator) (sepBy1 q separator') (List.Forall₂ R) B := by
  refine h.bind_left fun a b hab => ?_
  refine (many (hsep.bind_left fun _ _ _ => h.less)).bind fun as bs has => ?_
  exact .pure (.cons hab has)

end Parallel

/-! ## Readings that come apart -/

/-- At `cs` the parser halts. -/
def Halts (p : Parser α) (cs : List Char) : Prop := ∃ e, p (.ofChars cs) = .halt e

namespace Halts

variable {p : Parser α} {f : α → Parser β} {cs mid : List Char} {Q : α → Prop}

theorem expect {item : String} (h : Misses p cs) : Halts (Grammar.expect item p) cs := by
  obtain ⟨m, h⟩ := h
  exact ⟨_, by simp only [Grammar.expect, h, haltAt]; rfl⟩

theorem bind (h : Halts p cs) : Halts (p >>= f) cs := by
  obtain ⟨e, h⟩ := h
  exact ⟨e, by simp only [bind_apply, Parser.bind, h]⟩

theorem bind_of_reads (hp : Reads p cs mid Q) (hf : ∀ a, Q a → Halts (f a) mid) :
    Halts (p >>= f) cs := by
  obtain ⟨a, m, hp, ha⟩ := hp
  obtain ⟨e, hb⟩ := hf a ha
  exact ⟨e, by simp only [bind_apply, Parser.bind, hp, hb, Reply.after]⟩

end Halts

/-- The parser reads up to one of the places, `d` bytes at least. -/
def ReadsTo (D : Cursor → Prop) (q : Parser α) (d : Nat) (j : Cursor) : Prop :=
  ∃ b k m, q j = .done b k m ∧ D k ∧ k.bytes + d ≤ j.bytes

/-- A parser that reads nothing stays where it is. -/
theorem ReadsTo.of_reads {D : Cursor → Prop} {q : Parser α} {Q : α → Prop} {j : Cursor} (hj : D j)
    (h : Reads q j.chars j.chars Q) : ReadsTo D q 0 j := by
  obtain ⟨b, m, hq, -⟩ := h
  rw [Cursor.ofChars_chars] at hq
  exact ⟨b, j, m, hq, hj, Nat.le_refl _⟩

/-- The parsers answer alike, or the second comes to one of the places `D`. From there on the readings
are no longer compared. -/
def Unless (w : Comparison) (D : Cursor → Prop) (n d : Nat) (A : Cursor → Cursor → Prop) (p : Parser α)
    (q : Parser β) (R : α → β → Prop) (B : Cursor → Cursor → Prop) : Prop :=
  ∀ ⦃i j⦄, i.bytes < n → A i j → w.Match R (Beyond d B i j) (p i) (q j) ∨ ReadsTo D q d j

namespace Unless

variable {w : Comparison} {D : Cursor → Prop} {n d : Nat} {A B C : Cursor → Cursor → Prop}
variable {p p' : Parser α} {q q' : Parser β} {R : α → β → Prop}
variable {f : α → Parser γ} {g : β → Parser δ} {S : γ → δ → Prop}

theorem of_parallel (h : Parallel w n d A p q R B) : Unless w D n d A p q R B :=
  fun _ _ hi hij => .inl (h hi hij)

theorem zero : Unless w D 0 d A p q R B := of_parallel .zero

theorem start {A' : Cursor → Cursor → Prop} (h : Unless w D n d A p q R B)
    (hA : ∀ i j, A' i j → A i j) : Unless w D n d A' p q R B :=
  fun _ _ hi hij => h hi (hA _ _ hij)

theorem less (h : Unless w D n d A p q R B) : Unless w D n 0 A p q R B := by
  intro i j hi hij
  rcases h hi hij with hpq | ⟨b, k, m, hqj, hk, hd⟩
  · refine .inl (hpq.mono (fun _ _ hab => hab) fun i' j' hrest => ⟨hrest.1, ?_, ?_⟩)
    · exact Nat.le_of_add_right_le hrest.2.1
    · exact Nat.le_of_add_right_le hrest.2.2
  · exact .inr ⟨b, k, m, hqj, hk, Nat.le_of_add_right_le hd⟩

/-- Parsers that answer alike, before others that do so or come to one of the places. -/
theorem after_of_le {k e : Nat} (hk : k ≤ n + d) (h : Parallel w k d A p q R B)
    (hf : ∀ a b, R a b → Unless w D n e B (f a) (g b) S C) :
    Unless w D k (d + e) A (p >>= f) (q >>= g) S C := by
  intro i j hi hij
  have hpq := h hi hij
  simp only [ReadsTo, bind_apply, Parser.bind]
  generalize p i = r at hpq
  generalize q j = r' at hpq
  cases hpq with
  | @done a b i' j' m m' value rest =>
    obtain ⟨hB, hi', hj'⟩ := rest
    rcases hf a b value (i := i') (by omega) hB with hmatch | ⟨c, l, m'', hgb, hl, he⟩
    · refine .inl ((hmatch.mono (fun _ _ hab => hab) ?_).after m m')
      rintro k l ⟨hC, hk, hl⟩
      exact ⟨hC, by omega, by omega⟩
    · refine .inr ⟨c, l, m'.join m'', ?_, hl, by omega⟩
      simp only [hgb, Reply.after]
  | miss => exact .inl .miss
  | halt place => exact .inl (.halt place)
  | lost lost => exact .inl (.lost lost)

theorem after (h : Parallel w n 0 A p q R B)
    (hf : ∀ a b, R a b → Unless w D n d B (f a) (g b) S C) :
    Unless w D n d A (p >>= f) (q >>= g) S C :=
  Nat.zero_add d ▸ after_of_le (Nat.le_refl n) h hf

theorem after_left (h : Parallel w n d A p q R B)
    (hf : ∀ a b, R a b → Unless w D n 0 B (f a) (g b) S C) :
    Unless w D n d A (p >>= f) (q >>= g) S C := after_of_le (Nat.le_add_right n d) h hf

theorem after_shorter (h : Parallel w (n + 1) 1 A p q R B)
    (hf : ∀ a b, R a b → Unless w D n 0 B (f a) (g b) S C) :
    Unless w D (n + 1) 1 A (p >>= f) (q >>= g) S C := after_of_le (Nat.le_refl _) h hf

/-- Where the second reading has come to one of the places, the next parser has to come to one too. -/
theorem bind (h : Unless w D n d A p q R B)
    (hf : ∀ a b, R a b → Unless w D n 0 B (f a) (g b) S C)
    (hend : ∀ b k, D k → ReadsTo D (g b) 0 k) : Unless w D n d A (p >>= f) (q >>= g) S C := by
  intro i j hi hij
  rcases h hi hij with hpq | ⟨b, k, m, hqj, hk, hd⟩
  · have hpq' : Parallel w n d (fun k l => k = i ∧ l = j) p q R B := by
      rintro _ _ _ ⟨rfl, rfl⟩
      exact hpq
    exact after_left hpq' hf hi ⟨rfl, rfl⟩
  · obtain ⟨c, l, m', hgb, hl, hle⟩ := hend b k hk
    refine .inr ⟨c, l, m.join m', ?_, hl, by omega⟩
    simp only [bind_apply, Parser.bind, hqj, hgb, Reply.after]

theorem bind_pure {a : α → γ} {b : β → δ} (h : Unless w D n d A p q R B)
    (hS : ∀ x y, R x y → S (a x) (b y)) :
    Unless w D n d A (do return a (← p)) (do return b (← q)) S B :=
  h.bind (fun x y hxy => of_parallel (.pure (hS x y hxy))) fun _ _ hk =>
    .of_reads hk (Q := fun _ => True) (.pure trivial)

/-- Where the next parser halts at all of the places, it closes what may have come to one. -/
theorem close (h : Unless w D n d A p q R B)
    (hf : ∀ a b, R a b → Parallel w n 0 B (f a) (g b) S C) (hlost : ∀ k, D k → w.Lost)
    (hend : ∀ b k, D k → Halts (g b) k.chars) : Parallel w n d A (p >>= f) (q >>= g) S C := by
  intro i j hi hij
  rcases h hi hij with hpq | ⟨b, k, m, hqj, hk, -⟩
  · have hpq' : Parallel w n d (fun k l => k = i ∧ l = j) p q R B := by
      rintro _ _ _ ⟨rfl, rfl⟩
      exact hpq
    exact hpq'.bind_left hf hi ⟨rfl, rfl⟩
  · obtain ⟨e, hgb⟩ := hend b k hk
    rw [Cursor.ofChars_chars] at hgb
    have hhalt : (q >>= g) j = .halt e := by
      simp only [bind_apply, Parser.bind, hqj, hgb, Reply.after]
    rw [hhalt]
    exact .lost (hlost k hk)

theorem orElse (hp : Unless w D n d A p q R B) (hq : Unless w D n d A p' q' R B) :
    Unless w D n d A (p <|> p') (q <|> q') R B := by
  intro i j hi hij
  simp only [ReadsTo, orElse_apply, Parser.orElse]
  rcases hp hi hij with h | ⟨b, k, m, hqj, hk, hd⟩
  · generalize p i = r at h
    generalize q j = r' at h
    cases h with
    | done value rest => exact .inl (.done value rest)
    | @miss m m' =>
      rcases hq hi hij with h | ⟨b, k, m'', hqj, hk, hd⟩
      · exact .inl (h.after _ _)
      · exact .inr ⟨b, k, m'.join m'', by simp only [hqj, Reply.after], hk, hd⟩
    | halt place => exact .inl (.halt place)
    | lost lost => exact .inl (.lost lost)
  · exact .inr ⟨b, k, m, by simp only [hqj], hk, hd⟩

theorem expect {item : String} (h : Unless w D n d A p q R B)
    (hplace : ∀ i j, A i j → w.Place (Grammar.behindSpace i) (Grammar.behindSpace j)) :
    Unless w D n d A (Grammar.expect item p) (Grammar.expect item q) R B := by
  intro i j hi hij
  rcases h hi hij with hpq | ⟨b, k, m, hqj, hk, hd⟩
  · have hpq' : Parallel w n d (fun k l => k = i ∧ l = j) p q R B := by
      rintro _ _ _ ⟨rfl, rfl⟩
      exact hpq
    refine .inl (hpq'.expect ?_ hi ⟨rfl, rfl⟩)
    rintro _ _ ⟨rfl, rfl⟩
    exact hplace _ _ hij
  · exact .inr ⟨b, k, m, by simp only [Grammar.expect, hqj], hk, hd⟩

/-- An option, before which the second reading may have come to one of the places. -/
theorem maybe (h : Unless w D n d A p q R B) (hB : ∀ i j, B i j → A i j ∨ D j)
    (hend : ∀ k, D k → Misses q k.chars) :
    Unless w D n 0 B (maybe p) (maybe q) (Option.Rel R) B := by
  intro i j hi hij
  rcases hB i j hij with hA | hj
  · rcases h hi hA with hpq | ⟨b, k, m, hqj, hk, hd⟩
    · left
      simp only [Parser.maybe]
      generalize p i = r at hpq
      generalize q j = r' at hpq
      cases hpq with
      | done value rest =>
        exact .done (.some value) ⟨rest.1, Nat.le_of_add_right_le rest.2.1, Nat.le_of_add_right_le rest.2.2⟩
      | miss => exact .done .none ⟨hij, Nat.le_refl _, Nat.le_refl _⟩
      | halt place => exact .halt place
      | lost lost => exact .lost lost
    · exact .inr ⟨some b, k, m, by simp only [Parser.maybe, hqj], hk, Nat.le_of_add_right_le hd⟩
  · exact .inr (.of_reads hj (.maybe_none (hend j hj)))

/-- A repetition at one of the places. -/
theorem readsTo_manyWithin (hend : ∀ k, D k → Misses q k.chars) {l : Nat} {bs : List β} {j : Cursor}
    (hl : j.bytes < l) (hj : D j) : ReadsTo D (manyWithin (fun _ => q) l bs) 0 j := by
  obtain ⟨l, rfl⟩ : ∃ l', l = l' + 1 := ⟨l - 1, by omega⟩
  obtain ⟨m, hq⟩ := hend j hj
  rw [Cursor.ofChars_chars] at hq
  exact ⟨[], j, m, by simp only [Parser.manyWithin, hq], hj, Nat.le_refl _⟩

/-- Items one after the other, before each of which the second reading may have come to one of the
places. -/
theorem manyWithin (h : Unless w D n 1 A p q R B) (hB : ∀ i j, B i j → A i j ∨ D j)
    (hend : ∀ k, D k → Misses q k.chars) {k l : Nat} {as : List α} {bs : List β} {i j : Cursor}
    (hk : i.bytes < k) (hl : j.bytes < l) (hi : i.bytes < n) (hij : B i j) :
    w.Match (List.Forall₂ R) (Beyond 0 B i j) (manyWithin (fun _ => p) k as i)
        (manyWithin (fun _ => q) l bs j) ∨ ReadsTo D (Parser.manyWithin (fun _ => q) l bs) 0 j := by
  induction k generalizing l as bs i j with
  | zero => exact absurd hk (Nat.not_lt_zero _)
  | succ k ih =>
    rcases hB i j hij with hA | hj
    case inr => exact .inr (readsTo_manyWithin hend hl hj)
    obtain ⟨l, rfl⟩ : ∃ l', l = l' + 1 := ⟨l - 1, by omega⟩
    rcases h hi hA with hitem | ⟨b, j', m, hqj, hj', hd⟩
    case inr =>
      -- an item has come to one of the places, and no other follows it there
      obtain ⟨bs', j'', m', hrest, hj'', hle⟩ : ReadsTo D (Parser.manyWithin (fun _ => q) l (b :: bs)) 0 j' :=
        readsTo_manyWithin hend (by omega) hj'
      have hne : j'.bytes ≠ j.bytes := by omega
      refine .inr ⟨b :: bs', j'', m.join m', ?_, hj'', by omega⟩
      simp only [Parser.manyWithin, hqj, if_neg hne, hrest]
    simp only [ReadsTo, Parser.manyWithin]
    generalize p i = r at hitem
    generalize q j = r' at hitem
    cases hitem with
    | @done a b i' j' m m' value rest =>
      obtain ⟨hB', hi', hj'⟩ := rest
      have hne : i'.bytes ≠ i.bytes := by omega
      have hne' : j'.bytes ≠ j.bytes := by omega
      simp only [hne, hne', if_false]
      have hrest : w.Match (List.Forall₂ R) (Beyond 0 B i' j')
            (Parser.manyWithin (fun _ => p) k (a :: as) i')
            (Parser.manyWithin (fun _ => q) l (b :: bs) j') ∨
          ReadsTo D (Parser.manyWithin (fun _ => q) l (b :: bs)) 0 j' :=
        ih (by omega) (by omega) (by omega) hB'
      rcases hrest with hrest | ⟨bs', j'', m'', hrest, hj'', hle⟩
      · left
        generalize Parser.manyWithin (fun _ => p) k (a :: as) i' = s at hrest
        generalize Parser.manyWithin (fun _ => q) l (b :: bs) j' = s' at hrest
        cases hrest with
        | done values rest =>
          obtain ⟨hB, hk, hl⟩ := rest
          exact .done (.cons value values) ⟨hB, by omega, by omega⟩
        | miss => exact .miss
        | halt place => exact .halt place
        | lost lost => exact .lost lost
      · exact .inr ⟨b :: bs', j'', m'.join m'', by simp only [hrest], hj'', by omega⟩
    | miss => exact .inl (.done .nil ⟨hij, Nat.le_refl _, Nat.le_refl _⟩)
    | halt place => exact .inl (.halt place)
    | lost lost => exact .inl (.lost lost)

theorem many (h : Unless w D n 1 A p q R B) (hB : ∀ i j, B i j → A i j ∨ D j)
    (hend : ∀ k, D k → Misses q k.chars) :
    Unless w D n 0 B (many p) (many q) (List.Forall₂ R) B :=
  fun _ _ hi hij => h.manyWithin hB hend (Nat.lt_succ_self _) (Nat.lt_succ_self _) hi hij

end Unless

end Primer.Parser
