import Primer.Grammar.Declaration
import Primer.Proofs.LineEnds.Space

/-!
The parts that a parser runs, and where its failures come from. `Runs q j p i` says that `p`, started at
`i`, runs `q` at `j` as one of its parts; a part that halts makes the whole halt with the same error
(`Runs.halt`). In the other direction `Accounts p` says that no failure of `p` is of unknown origin: the
marks that it leaves stand in what it was given, and an error with which it halts was raised by one of
the four productions of `Raises`, run as a part of it.
-/

namespace Primer

/-- The mark, if there is one, stands before one of the characters or behind the last. -/
def Mark.Within (m : Mark) (cs : List Char) : Prop := ∀ n ∈ m, ∃ rest, rest <:+ cs ∧ byteCount rest = n

namespace Mark.Within

variable {m m' : Mark} {cs ds : List Char}

theorem none : Within none cs := fun _ h => by cases h

theorem some (i : Cursor) : Within (some i.bytes) i.chars := by
  intro n hn
  cases hn
  exact ⟨i.chars, List.suffix_rfl, i.bytes_eq.symm⟩

theorem of_suffix (h : m.Within cs) (hs : cs <:+ ds) : m.Within ds := by
  intro n hn
  obtain ⟨rest, hrest, hbytes⟩ := h n hn
  exact ⟨rest, hrest.trans hs, hbytes⟩

theorem join (h : m.Within cs) (h' : m'.Within cs) : (m.join m').Within cs := by
  cases m with
  | none => simpa [Mark.join] using h'
  | some a =>
    cases m' with
    | none => simpa [Mark.join] using h
    | some b =>
      intro n hn
      simp only [Mark.join, Option.merge_some_some, Option.mem_some_iff] at hn
      rcases Nat.le_total a b with hab | hab
      · exact h n (by rw [← hn, Nat.min_eq_left hab]; rfl)
      · exact h' n (by rw [← hn, Nat.min_eq_right hab]; rfl)

end Mark.Within

namespace Parser

open Grammar

/-- The parser `p`, started at `i`, runs `q` at `j`: it is `q` itself, or one of its own parts is run and
runs `q`. What a part finds decides which other parts are run, and where. -/
inductive Runs {β : Type} (q : Parser β) (j : Cursor) : {α : Type} → Parser α → Cursor → Prop where
  | self : Runs q j q j
  | first {p : Parser α} {f : α → Parser γ} (h : Runs q j p i) : Runs q j (p >>= f) i
  | next {p : Parser α} {f : α → Parser γ} (hp : p i = .done a k m) (h : Runs q j (f a) k) :
    Runs q j (p >>= f) i
  | alternative {p p' : Parser α} (h : Runs q j p i) : Runs q j (p <|> p') i
  | instead {p p' : Parser α} (hp : p i = .miss m) (h : Runs q j p' i) : Runs q j (p <|> p') i
  | lookAhead {p : Parser α} (h : Runs q j p i) : Runs q j (lookAhead p) i
  | notFollowedBy {p : Parser α} (h : Runs q j p i) : Runs q j (notFollowedBy p) i
  | maybe {p : Parser α} (h : Runs q j p i) : Runs q j (maybe p) i
  | expect {p : Parser α} (h : Runs q j p i) : Runs q j (expect item p) i
  | behind {p : Parser α} (hp : p i = .miss m) (h : Runs q j space i) : Runs q j (expect item p) i
  | item {p : List α → Parser α} (h : Runs q j (p earlier) i) : Runs q j (manyWithin p (n + 1) earlier) i
  | later {p : List α → Parser α} (hp : p earlier i = .done a k m) (hk : k.bytes ≠ i.bytes)
    (h : Runs q j (manyWithin p n (a :: earlier)) k) : Runs q j (manyWithin p (n + 1) earlier) i
  | manyWith {p : List α → Parser α} (h : Runs q j (manyWithin p (i.bytes + 1) []) i) :
    Runs q j (manyWith p) i
  | unfold {f : Parser α → Parser α} (h : Runs q j (f (fixWithin f n)) i) :
    Runs q j (fixWithin f (n + 1)) i
  | fix {f : Parser α → Parser α} (h : Runs q j (fixWithin f (i.bytes + 1)) i) : Runs q j (fix f) i

theorem Runs.next_of_reads {q : Parser β} {p : Parser α} {f : α → Parser γ} {cs rest : List Char}
    {Q : α → Prop} (hp : Reads p cs rest Q) (hf : ∀ a, Q a → Runs q j (f a) (.ofChars rest)) :
    Runs q j (p >>= f) (.ofChars cs) := by
  obtain ⟨a, m, hdone, ha⟩ := hp
  exact .next hdone (hf a ha)

theorem Runs.instead_of_misses {q : Parser β} {p p' : Parser α} {cs : List Char} (hp : Misses p cs)
    (h : Runs q j p' (.ofChars cs)) : Runs q j (p <|> p') (.ofChars cs) := by
  obtain ⟨m, hmiss⟩ := hp
  exact .instead hmiss h

/-- Space never fails. -/
theorem space_ne_halt (i : Cursor) (e : ReadError) : space i ≠ .halt e := by
  obtain ⟨a, m, h, -⟩ := reads_space_skip i.chars
  rw [Cursor.ofChars_chars] at h
  rw [h]
  rintro ⟨⟩

/-- A part that halts makes the whole halt. -/
theorem Runs.halt {β : Type} {q : Parser β} {j : Cursor} {e : ReadError} (hq : q j = .halt e)
    {α : Type} {p : Parser α} {i : Cursor} (h : Runs q j p i) : p i = .halt e := by
  induction h with
  | self => exact hq
  | first _ ih => simp only [bind_apply, Parser.bind, ih]
  | next hp _ ih => simp only [bind_apply, Parser.bind, hp, ih, Reply.after]
  | alternative _ ih => simp only [orElse_apply, Parser.orElse, ih]
  | instead hp _ ih => simp only [orElse_apply, Parser.orElse, hp, ih, Reply.after]
  | lookAhead _ ih => simp only [Parser.lookAhead, ih]
  | notFollowedBy _ ih => simp only [Parser.notFollowedBy, ih]
  | maybe _ ih => simp only [Parser.maybe, ih]
  | expect _ ih => simp only [Grammar.expect, ih]
  | behind _ _ ih => exact absurd ih (space_ne_halt _ e)
  | item _ ih => simp only [manyWithin, ih]
  | later hp hk _ ih => simp only [manyWithin, hp, if_neg hk, ih]
  | manyWith _ ih => exact ih
  | unfold _ ih => exact ih
  | fix _ ih => exact ih

/-- The production itself raises the error: something expected is missing, a name is too long, a number
does not fit, or a type names a structure that is not known. -/
inductive Raises : {α : Type} → Parser α → Cursor → ReadError → Prop where
  | expected {p : Parser α} (hp : p i = .miss m) :
    Raises (expect item p) i ⟨.expected item, (behindSpace i).position⟩
  | nameTooLong (hname : label i = .done name rest m) (hkey : isKeyword name = false)
    (hlength : maxNameLength < name.length) : Raises ident i ⟨.nameTooLong, i.position⟩
  | numberOutOfRange (hsign : sign i = .done negative k m) (hdigits : digits k = .done ds rest m')
    (hvalue : Literal.ofInt? (if negative then -(ofDigits ds : Int) else ofDigits ds) = none) :
    Raises integer i ⟨.numberOutOfRange, i.position⟩
  | undefinedStructure (hname : ident i = .done x rest m) (hknown : known.contains x.name = false) :
    Raises (namedType known) i ⟨.undefinedStructure x.name, i.position⟩

theorem Raises.halt {p : Parser α} (h : Raises p i e) : p i = .halt e := by
  cases h with
  | expected hp => simp only [Grammar.expect, hp, haltAt]
  | nameTooLong hname hkey hlength =>
    simp [ident, bind_apply, Parser.bind, here, hname, hkey, hlength, haltAt, Reply.after]
  | numberOutOfRange hsign hdigits hvalue =>
    simp [integer, bind_apply, Parser.bind, here, hsign, hdigits, hvalue, haltAt, Reply.after]
  | undefinedStructure hname hknown =>
    simp only [namedType, bind_apply, Parser.bind, here, hname, hknown, haltAt, Reply.after,
      Bool.false_eq_true, if_false]

/-- Where the reply of the parser `p` at `i` comes from. -/
inductive Accounted {α : Type} (p : Parser α) (i : Cursor) {γ : Type} : Reply γ → Prop where
  | done (hrest : rest.chars <:+ i.chars) (hm : m.Within i.chars) : Accounted p i (.done a rest m)
  | miss (hm : m.Within i.chars) : Accounted p i (.miss m)
  | halt {β : Type} {q : Parser β} (hruns : Runs q j p i) (hraises : Raises q j e)
    (hj : j.chars <:+ i.chars) : Accounted p i (.halt e)

/-- No failure of the parser is of unknown origin. -/
def Accounts (p : Parser α) : Prop := ∀ i, Accounted p i (p i)

namespace Accounted

variable {p : Parser α} {p' : Parser β} {i k : Cursor} {m : Mark} {r : Reply γ}

/-- The reply of a part is accounted for in the whole. -/
theorem lift (h : Accounted p' k r) (hk : k.chars <:+ i.chars)
    (hruns : ∀ {δ : Type} {q : Parser δ} {j}, Runs q j p' k → Runs q j p i) : Accounted p i r := by
  cases h with
  | done hrest hm => exact .done (hrest.trans hk) (hm.of_suffix hk)
  | miss hm => exact .miss (hm.of_suffix hk)
  | halt hrun hraises hj => exact .halt (hruns hrun) hraises (hj.trans hk)

theorem after (h : Accounted p i r) (hm : m.Within i.chars) : Accounted p i (r.after m) := by
  cases h with
  | done hrest hm' => exact .done hrest (hm.join hm')
  | miss hm' => exact .miss (hm.join hm')
  | halt hrun hraises hj => exact .halt hrun hraises hj

theorem missAt : Accounted p i (missAt i i : Reply γ) := .miss (.some i)

end Accounted

namespace Accounts

variable {p p' : Parser α} {f : α → Parser β} {i k : Cursor} {m : Mark}

theorem done (h : Accounts p) (hp : p i = .done a k m) : k.chars <:+ i.chars ∧ m.Within i.chars := by
  have hi := h i
  rw [hp] at hi
  cases hi with
  | done hk hm => exact ⟨hk, hm⟩

theorem miss (h : Accounts p) (hp : p i = .miss m) : m.Within i.chars := by
  have hi := h i
  rw [hp] at hi
  cases hi with
  | miss hm => exact hm

/-- The error of a part is accounted for in the whole. -/
theorem halt (h : Accounts p) (hp : p i = .halt e) {p' : Parser β}
    (hruns : ∀ {δ : Type} {q : Parser δ} {j}, Runs q j p i → Runs q j p' i) :
    Accounted p' i (.halt e : Reply γ) := by
  have hi := h i
  rw [hp] at hi
  cases hi with
  | halt hrun hraises hj => exact .halt (hruns hrun) hraises hj

/-! ## Sequence and choice -/

theorem pure {a : α} : Accounts (pure a) := fun _ => .done List.suffix_rfl .none

/-- A sequence that `w` runs at `k` is accounted for in `w` if its first part accounts for its failures
and what follows is accounted for in `w`. -/
theorem bind_within {w : Parser γ} (hp : Accounts p) (hk : k.chars <:+ i.chars)
    (hruns : ∀ {δ : Type} {q : Parser δ} {j}, Runs q j p k → Runs q j w i)
    (hf : ∀ a l m, p k = .done a l m → Accounted w i (f a l)) : Accounted w i ((p >>= f) k) := by
  rw [bind_apply, Parser.bind]
  cases hpk : p k with
  | done a l m => exact (hf a l m hpk).after ((hp.done hpk).2.of_suffix hk)
  | miss m => exact .miss ((hp.miss hpk).of_suffix hk)
  | halt e => exact (hp.halt hpk id).lift hk hruns

theorem bind (hp : Accounts p) (hf : ∀ a, Accounts (f a)) : Accounts (p >>= f) :=
  fun _ => hp.bind_within List.suffix_rfl .first fun a l _ hpi =>
    (hf a l).lift (hp.done hpi).1 (.next hpi)

theorem discard (h : Accounts p) : Accounts (discard p) := h.bind fun _ => .pure

theorem orElse (hp : Accounts p) (hp' : Accounts p') : Accounts (p <|> p') := by
  intro i
  rw [orElse_apply, Parser.orElse]
  cases hpi : p i with
  | done a k m => exact .done (hp.done hpi).1 (hp.done hpi).2
  | miss m => exact ((hp' i).lift List.suffix_rfl (.instead hpi)).after (hp.miss hpi)
  | halt e => exact hp.halt hpi .alternative

theorem choice {ps : List (Parser α)} (h : ∀ p ∈ ps, Accounts p) : Accounts (choice ps) := by
  induction ps with
  | nil => exact fun _ => .missAt
  | cons p ps ih =>
    exact (h p List.mem_cons_self).orElse (ih fun q hq => h q (List.mem_cons_of_mem p hq))

/-! ## Primitives -/

theorem here : Accounts here := fun _ => .done List.suffix_rfl .none

theorem satisfy {t : Char → Bool} : Accounts (satisfy t) := by
  intro i
  rw [Parser.satisfy]
  split
  · split
    · exact .done (List.drop_suffix _ _) .none
    · exact .missAt
  · exact .missAt

theorem text {s : String} : Accounts (text s) := by
  intro i
  rw [Parser.text]
  split
  · exact .done (List.drop_suffix _ _) .none
  · exact .missAt

theorem takeWhile {t : Char → Bool} : Accounts (takeWhile t) :=
  fun _ => .done (List.drop_suffix _ _) .none

theorem takeWhile1 {t : Char → Bool} : Accounts (takeWhile1 t) := by
  intro i
  simp only [Parser.takeWhile1]
  split
  · exact .missAt
  · exact .done (List.drop_suffix _ _) .none

theorem skipUntil {s : String} : Accounts (skipUntil s) := by
  intro i
  rw [Parser.skipUntil]
  split
  · exact .done (List.drop_suffix _ _) .none
  · exact .missAt

theorem atEnd : Accounts atEnd := by
  intro i
  rw [Parser.atEnd]
  split
  · exact .done List.suffix_rfl .none
  · exact .missAt

/-! ## Look-ahead and options -/

theorem lookAhead (hp : Accounts p) : Accounts (lookAhead p) := by
  intro i
  rw [Parser.lookAhead]
  cases hpi : p i with
  | done a k m => exact .done List.suffix_rfl (hp.done hpi).2
  | miss m => exact .miss (hp.miss hpi)
  | halt e => exact hp.halt hpi .lookAhead

theorem notFollowedBy (hp : Accounts p) : Accounts (notFollowedBy p) := by
  intro i
  rw [Parser.notFollowedBy]
  cases hpi : p i with
  | done a k m => exact .miss ((hp.done hpi).2.join (.some i))
  | miss m => exact .done List.suffix_rfl (hp.miss hpi)
  | halt e => exact hp.halt hpi .notFollowedBy

theorem maybe (hp : Accounts p) : Accounts (maybe p) := by
  intro i
  rw [Parser.maybe]
  cases hpi : p i with
  | done a k m => exact .done (hp.done hpi).1 (hp.done hpi).2
  | miss m => exact .done List.suffix_rfl (hp.miss hpi)
  | halt e => exact hp.halt hpi .maybe

theorem expect {item : String} (hp : Accounts p) : Accounts (Grammar.expect item p) := by
  intro i
  cases hpi : p i with
  | done a k m =>
    rw [Grammar.expect, hpi]
    exact .done (hp.done hpi).1 (hp.done hpi).2
  | miss m =>
    have hraises : Raises (Grammar.expect item p) i _ := .expected hpi
    rw [hraises.halt]
    exact .halt .self hraises List.suffix_rfl
  | halt e =>
    rw [Grammar.expect, hpi]
    exact hp.halt hpi .expect

/-! ## Repetition -/

theorem manyWithin {p : List α → Parser α} (hp : ∀ earlier, Accounts (p earlier)) (n : Nat)
    (earlier : List α) : Accounts (manyWithin p n earlier) := by
  induction n generalizing earlier with
  | zero => exact fun _ => .missAt
  | succ n ih =>
    intro i
    rw [Parser.manyWithin]
    cases hpi : p earlier i with
    | done a k m =>
      obtain ⟨hk, hm⟩ := (hp earlier).done hpi
      simp only
      split
      · exact .miss (hm.join (.some i))
      case isFalse hne =>
        cases hlater : Parser.manyWithin p n (a :: earlier) k with
        | done as l m' =>
          obtain ⟨hl, hm'⟩ := (ih (a :: earlier)).done hlater
          exact .done (hl.trans hk) (hm.join (hm'.of_suffix hk))
        | miss m' => exact .miss (hm.join (((ih (a :: earlier)).miss hlater).of_suffix hk))
        | halt e =>
          have hhalt : Accounted (Parser.manyWithin p n (a :: earlier)) k (.halt e : Reply (List α)) :=
            (ih (a :: earlier)).halt hlater id
          exact hhalt.lift hk (.later hpi hne)
    | miss m => exact .done List.suffix_rfl ((hp earlier).miss hpi)
    | halt e => exact (hp earlier).halt hpi .item

theorem manyWith {p : List α → Parser α} (hp : ∀ earlier, Accounts (p earlier)) :
    Accounts (manyWith p) :=
  fun i => (manyWithin hp (i.bytes + 1) [] i).lift List.suffix_rfl .manyWith

theorem many (hp : Accounts p) : Accounts (many p) := manyWith fun _ => hp

theorem sepBy1 {separator : Parser β} (hp : Accounts p) (hseparator : Accounts separator) :
    Accounts (sepBy1 p separator) :=
  hp.bind fun _ => (many (hseparator.bind fun _ => hp)).bind fun _ => .pure

theorem fix {f : Parser α → Parser α} (hf : ∀ p, Accounts p → Accounts (f p)) : Accounts (fix f) := by
  have hwithin : ∀ n, Accounts (fixWithin f n) := by
    intro n
    induction n with
    | zero => exact fun _ => .missAt
    | succ n ih => exact fun i => (hf _ ih i).lift List.suffix_rfl .unfold
  exact fun i => (hwithin (i.bytes + 1) i).lift List.suffix_rfl .fix

end Accounts

end Parser

end Primer
