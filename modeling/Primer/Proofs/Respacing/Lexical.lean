import Primer.Proofs.Grammar.Tokens

/-!
Two texts that consist of the same tokens and differ in the space between them. A `Respacing` says
which places of the two correspond, how they are compared, and what has to be known of space, of line
ends and of strings. From it follows for each production that it answers alike on both texts, and that
its values are equal once their places are put where they are compared: here for words, names and
literals. The second text may also be the shorter one, and end at the end of a line.
-/

namespace Primer

open Primer.Parser Primer.Grammar

/-- A character that neither is space nor starts a comment or a string. -/
def isPlain (c : Char) : Bool := !isSpace c && c != '/' && c != '"'

theorem ne_of_test {t : Char → Bool} {c d : Char} (hc : t c = true) (hd : t d = false) : c ≠ d := by
  rintro rfl
  rw [hc] at hd
  cases hd

/-- How the places of two texts correspond that have the same tokens. -/
structure Respacing extends Comparison where
  /-- Places between tokens. -/
  Amid : Cursor → Cursor → Prop
  /-- Places behind a token of the same line. -/
  Behind : Cursor → Cursor → Prop
  /-- Places behind a line end and all that is blank. -/
  Fresh : Cursor → Cursor → Prop
  /-- Places within a string. -/
  Quoted : Cursor → Cursor → Prop
  /-- Where the places of the first text are put to compare them. -/
  left : Position → Position := fun _ => default
  /-- Where the places of the second text are put to compare them. -/
  right : Position → Position := fun _ => default
  amid_of_behind : ∀ i j, Behind i j → Amid i j
  amid_of_fresh : ∀ i j, Fresh i j → Amid i j ∨ Short ∧ j.chars = []
  lost_of_short : Short → Lost
  point : ∀ i j, Amid i j → left i.position = right j.position
  plain : Parallel.Steps isPlain Amid Behind
  place_plain : ∀ i j c, Amid i j → isPlain c = true → i.chars.head? = some c → Place i j
  place_behindSpace : ∀ i j, Amid i j ∨ Quoted i j → Place (behindSpace i) (behindSpace j)
  space : ∀ n, Parallel toComparison n 0 Amid Grammar.space Grammar.space (fun _ _ => True) Amid
  lineEnd : ∀ n item, Parallel toComparison n 0 Behind (expect item Grammar.lineEnd)
    (expect item Grammar.lineEnd) (fun _ _ => True) Fresh
  divide : ∀ n, Parallel toComparison n 1 Amid (operatorSign .divide) (operatorSign .divide)
    (fun _ _ => True) Behind
  openQuote : ∀ n, Parallel toComparison n 1 Amid (char '"') (char '"') Eq Quoted
  stringItem : ∀ n, Parallel toComparison n 1 Quoted Grammar.stringItem Grammar.stringItem Eq Quoted
  closeQuote : ∀ n, Parallel toComparison n 1 Quoted (char '"') (char '"') Eq Behind
  nil_iff : ¬ Short → ∀ i j, Fresh i j → (i.chars = [] ↔ j.chars = [])

namespace Respacing

variable (W : Respacing)

/-- Equal once the places of both are put where they are compared. -/
def Alike (relocate : (Position → Position) → α → α) (a b : α) : Prop :=
  relocate W.left a = relocate W.right b

/-- The parsers answer alike wherever a token may start, and read up to the end of one. -/
abbrev Tokens (n : Nat) (p q : Parser α) (R : α → α → Prop) : Prop :=
  Parallel W.toComparison n 1 W.Amid p q R W.Behind

/-- The parser answers alike wherever a token may start, and reads up to the end of one. -/
abbrev Token (n : Nat) (p : Parser α) (R : α → α → Prop) : Prop := W.Tokens n p p R

/-- The parser answers alike behind a token, and reads up to the end of one. -/
abbrev Rest (n : Nat) (p : Parser α) (R : α → α → Prop) : Prop :=
  Parallel W.toComparison n 0 W.Behind p p R W.Behind

/-- The parser answers alike wherever a token may start, and reads up to the next line. -/
abbrev Line (n : Nat) (p : Parser α) (R : α → α → Prop) : Prop :=
  Parallel W.toComparison n 1 W.Amid p p R W.Fresh

/-- The second text may be at its end. -/
def Ended (j : Cursor) : Prop := W.Short ∧ j.chars = []

variable {W} {n d : Nat} {p q : Parser α} {R : α → α → Prop} {B : Cursor → Cursor → Prop}

theorem Alike.eq {relocate : (Position → Position) → α → α} {a b : α} (h : W.Alike relocate a b) :
    relocate W.left a = relocate W.right b := h

theorem Alike.map {relocate : (Position → Position) → α → α} {as bs : List α}
    (h : List.Forall₂ (W.Alike relocate) as bs) :
    as.map (relocate W.left) = bs.map (relocate W.right) := by
  induction h with
  | nil => rfl
  | cons hab _ ih => rw [List.map_cons, List.map_cons, hab.eq, ih]

theorem Alike.name_eq {x y : Ident} (h : W.Alike Ident.relocate x y) : x.name = y.name := by
  have hname := congrArg Ident.name h.eq
  exact hname

/-- At the start of a line the second text may be at its end, where nothing is left to halt for. -/
theorem of_amid (h : Parallel W.toComparison n d W.Amid p p R B) (hend : Halts p []) :
    Parallel W.toComparison n d W.Fresh p p R B := by
  intro i j hi hij
  rcases W.amid_of_fresh i j hij with hij | ⟨hshort, hj⟩
  · exact h hi hij
  · obtain ⟨e, he⟩ := hend
    rw [← hj, Cursor.ofChars_chars] at he
    rw [he]
    exact .lost (W.lost_of_short hshort)

theorem lost_of_ended (k : Cursor) (hk : W.Ended k) : W.Lost := W.lost_of_short hk.1

theorem misses_of_ended (h : Misses p []) (k : Cursor) (hk : W.Ended k) : Misses p k.chars := by
  rwa [hk.2]

theorem halts_of_ended (h : Halts p []) (k : Cursor) (hk : W.Ended k) : Halts p k.chars := by
  rwa [hk.2]

/-! ## Space -/

theorem expect {item : String} (h : Parallel W.toComparison n d W.Amid p q R B) :
    Parallel W.toComparison n d W.Amid (Grammar.expect item p) (Grammar.expect item q) R B :=
  Parallel.expect h fun i j hij => W.place_behindSpace i j (.inl hij)

theorem afterSpace (h : Parallel W.toComparison n d W.Amid p q R B) :
    Parallel W.toComparison n d W.Amid (Grammar.afterSpace p) (Grammar.afterSpace q) R B :=
  (W.space n).bind fun _ _ _ => h

theorem spaced (h : W.Tokens n p q R) :
    Parallel W.toComparison n 1 W.Amid (Grammar.spaced p) (Grammar.spaced q) R W.Amid := by
  refine (W.space n).bind fun _ _ _ => (h.rest W.amid_of_behind).bind_left fun a b hab => ?_
  exact (W.space n).bind fun _ _ _ => .pure hab

/-- What has to follow a token, after space. -/
theorem expectNext {item : String} (h : Parallel W.toComparison n d W.Amid p q R B) :
    Parallel W.toComparison n 0 W.Behind (Grammar.expect item (Grammar.afterSpace p))
      (Grammar.expect item (Grammar.afterSpace q)) R B :=
  ((expect (afterSpace h)).start W.amid_of_behind).less

/-! ## Words and names -/

theorem satisfy {t : Char → Bool} (ht : ∀ c, t c = true → isPlain c = true) :
    W.Token n (Parser.satisfy t) Eq := .satisfy (W.plain.of_imp ht)

theorem char {c : Char} (hc : isPlain c = true) : W.Token n (Parser.char c) Eq :=
  satisfy fun d hd => by rwa [beq_iff_eq.1 hd]

/-- What stands between two signs, with space around it. -/
theorem enclosed {o c : Char} {item item' : String} (ho : isPlain o = true)
    (hc : isPlain c = true) (h : W.Tokens n p q R) :
    W.Tokens (n + 1) (do
      discard <| Parser.char o
      let a ← Grammar.expect item (Grammar.spaced p)
      discard <| Grammar.expect item' (Parser.char c)
      return a) (do
      discard <| Parser.char o
      let a ← Grammar.expect item (Grammar.spaced q)
      discard <| Grammar.expect item' (Parser.char c)
      return a) R := by
  refine (char ho).discard.bind_shorter fun _ _ _ => Parallel.start ?_ W.amid_of_behind
  refine (expect (spaced h)).less.bind fun a b hab => ?_
  exact (expect (char hc)).less.discard.bind fun _ _ _ => .pure hab

/-- The list that an opening parenthesis starts, which may be empty. -/
theorem listed {item : String} (h : W.Tokens n p q R) :
    Parallel W.toComparison n 0 W.Behind (do
      let as ←
        (do discard <| lookAhead (Grammar.afterSpace (Parser.char ')')); return []) <|>
          sepBy1 (Grammar.spaced p) (Parser.char ',')
      discard <| Grammar.expect item (Grammar.afterSpace (Parser.char ')'))
      return as) (do
      let as ←
        (do discard <| lookAhead (Grammar.afterSpace (Parser.char ')')); return []) <|>
          sepBy1 (Grammar.spaced q) (Parser.char ',')
      discard <| Grammar.expect item (Grammar.afterSpace (Parser.char ')'))
      return as) (List.Forall₂ R) W.Behind := by
  have hclose : W.Token n (Parser.char ')') Eq := char (by decide)
  have hcomma : W.Token n (Parser.char ',') Eq := char (by decide)
  refine Parallel.start ?_ W.amid_of_behind
  refine Parallel.bind (B := W.Amid) (R := List.Forall₂ R) (.orElse ?_ ?_) fun as bs has => ?_
  · exact (afterSpace hclose).lookAhead.discard.bind fun _ _ _ => .pure .nil
  · exact ((spaced h).sepBy1 (hcomma.rest W.amid_of_behind)).less
  · exact (expect (afterSpace hclose)).less.discard.bind fun _ _ _ => .pure has

theorem isPlain_of_isNameChar {c : Char} (h : isNameChar c = true) : isPlain c = true := by
  have hne {d : Char} (hd : isNameChar d = false) : c ≠ d := ne_of_test h hd
  simp [isPlain, isSpace, hne (d := ' ') (by decide), hne (d := '\t') (by decide),
    hne (d := '\r') (by decide), hne (d := '\n') (by decide), hne (d := '/') (by decide),
    hne (d := '"') (by decide)]

theorem isPlain_of_isTokenChar {c : Char} (h : isTokenChar c = true) : isPlain c = true := by
  rcases Bool.or_eq_true_iff.1 h with h | h
  · exact isPlain_of_isNameChar h
  · revert h
    simp only [List.contains_cons, List.contains_nil, Bool.or_eq_true, beq_iff_eq, Bool.or_false]
    rintro (rfl | rfl | rfl | rfl | rfl | rfl | rfl | rfl | rfl) <;> decide

theorem steps_tokenChar : Parallel.Steps isTokenChar W.Amid W.Behind :=
  W.plain.of_imp fun _ => isPlain_of_isTokenChar

theorem word {w : String} (hw : isWord w = true) : W.Token n (Grammar.word w) fun _ _ => True :=
  .word steps_tokenChar W.amid_of_behind hw

theorem misses_word_nil {w : String} (hw : isWord w = true) : Misses (Grammar.word w) [] := by
  refine misses_word (fun h => ?_) hw
  obtain rfl : w = "" := String.toList_eq_nil_iff.1 h.symm
  cases hw

/-- The word that has to close a block. -/
theorem closingWord {item w : String} (hw : isWord w = true) :
    Parallel W.toComparison n 0 W.Fresh (Grammar.expect item (Grammar.word w))
      (Grammar.expect item (Grammar.word w)) (fun _ _ => True) W.Behind :=
  of_amid (expect (word hw)).less (.expect (misses_word_nil hw))

theorem ahead {words : List String} (hwords : ∀ w ∈ words, isWord w = true) :
    Parallel W.toComparison n 0 W.Amid (Grammar.ahead words) (Grammar.ahead words)
      (fun _ _ => True) W.Amid := by
  refine .lookAhead (d := 1) (B := W.Behind) (.choice fun p hp => ?_)
  obtain ⟨w, hw, rfl⟩ := List.mem_map.1 hp
  exact word (hwords w hw)

/-- A production that may halt where it starts has only to be followed from where the places of
errors correspond: elsewhere neither text starts with a token. -/
theorem of_place (hmiss : ∀ cs, (∀ c ∈ cs.head?, isPlain c = false) → Misses p cs)
    (h : Parallel W.toComparison n d (fun i j => W.Amid i j ∧ W.Place i j) p p R B) :
    Parallel W.toComparison n d W.Amid p p R B := by
  intro i j hi hij
  by_cases hplain : ∃ c, i.chars.head? = some c ∧ isPlain c = true
  · obtain ⟨c, hc, hplain⟩ := hplain
    exact h hi ⟨hij, W.place_plain i j c hij hplain hc⟩
  · refine .of_misses (hmiss _ fun c hc => ?_) (hmiss _ fun c hc => ?_)
    · exact Bool.eq_false_iff.2 fun hp => hplain ⟨c, hc, hp⟩
    · exact Bool.eq_false_iff.2 fun hp => hplain ⟨c, (W.plain.head hij hp).2 hc, hp⟩

theorem head_eq_false {t : Char → Bool} {cs : List Char} (ht : ∀ c, t c = true → isPlain c = true)
    (h : ∀ c ∈ cs.head?, isPlain c = false) : ∀ c ∈ cs.head?, t c = false := by
  intro c hc
  refine Bool.eq_false_iff.2 fun htc => ?_
  exact absurd (ht c htc) (by simp [h c hc])

theorem ident : W.Token n Grammar.ident (W.Alike Ident.relocate) := by
  refine of_place (fun cs hcs => ?_) (.ident steps_tokenChar W.amid_of_behind W.point)
  exact misses_ident_of_head
    (head_eq_false (fun c hc => isPlain_of_isNameChar (isNameChar_of_isNameStart hc)) hcs)

/-! ## Literals -/

theorem integer : W.Token n Grammar.integer Eq := by
  refine of_place (fun cs hcs => ?_) (.integer steps_tokenChar W.amid_of_behind)
  have hsign : Reads Grammar.sign cs cs fun _ => True := by
    refine .bind (.maybe_none (.satisfy ?_)) fun _ _ => .pure trivial
    exact head_eq_false (fun c hc => isPlain_of_isTokenChar (isTokenChar_of_sign hc)) hcs
  refine .bind_of_reads .here fun _ _ => .bind_of_reads hsign fun _ _ => .bind (.takeWhile1 ?_)
  exact head_eq_false (fun c hc => isPlain_of_isTokenChar (isTokenChar_of_isDigit hc)) hcs

theorem literal : W.Token n Grammar.literal Eq := by
  refine .orElse ?_ (.orElse ?_ (.orElse integer ?_))
  · exact .string (W.openQuote n) (W.stringItem n) (W.closeQuote n) fun i j hij =>
      W.place_behindSpace i j (.inr hij)
  · exact .real steps_tokenChar W.amid_of_behind
  · exact .boolean steps_tokenChar W.amid_of_behind

end Respacing

end Primer
