import Primer.Proofs.LineEnds.Space
import Primer.Proofs.Respacing.Program

/-!
A text compared with itself. As both readings are then one, what remains of a comparison is that the
productions make progress; so no repetition of the grammar stops for want of it, and a program is
either read or ends with an error at a place of its own (`answers_program`).
-/

namespace Primer

open Primer.Parser Primer.Grammar

namespace Parser

variable {w : Comparison} {n d : Nat} {p q : Parser α}

theorem Advances.orElse (hp : Advances p) (hq : Advances q) : Advances (p <|> q) := by
  intro i a j m h
  simp only [orElse_apply, Parser.orElse] at h
  split at h
  · obtain ⟨m', hqi⟩ := done_of_after h
    exact hq hqi
  · exact hp h

theorem Parallel.refl (hw : w.Lost)
    (hp : ∀ i a j m, p i = .done a j m → j.bytes + d ≤ i.bytes) : Parallel w n d Eq p p Eq Eq := by
  rintro i _ _ rfl
  cases h : p i with
  | done a j m => exact .done rfl ⟨rfl, hp i a j m h, hp i a j m h⟩
  | miss m => exact .miss
  | halt e => exact .lost hw

theorem Parallel.bytes_lt {R : α → α → Prop} {B : Cursor → Cursor → Prop}
    (h : ∀ n, Parallel w n 1 Eq p p R B) (hp : p i = .done a j m) : j.bytes < i.bytes := by
  have hmatch := h (i.bytes + 1) (Nat.lt_succ_self _) rfl
  rw [hp] at hmatch
  cases hmatch with
  | done _ rest => exact rest.2.1

/-! ## Parsers that never miss -/

/-- The parser reads something or halts, wherever it is tried. -/
def Answers (p : Parser α) : Prop := ∀ i m, p i ≠ .miss m

namespace Answers

theorem bind {f : α → Parser β} (hp : Answers p) (hf : ∀ a, Answers (f a)) : Answers (p >>= f) := by
  intro i m h
  simp only [bind_apply, Parser.bind] at h
  split at h
  case h_1 a j m' _ =>
    cases hfa : f a j with
    | miss m'' => exact hf a j m'' hfa
    | done _ _ _ | halt _ => rw [hfa] at h; cases h
  case h_2 m' hmiss => exact hp i m' hmiss
  case h_3 => cases h

theorem expect {item : String} : Answers (Grammar.expect item p) := by
  intro i m h
  simp only [Grammar.expect] at h
  split at h
  case h_1 => cases h
  case h_2 hne => exact hne m h

theorem manyWithin {p : List α → Parser α}
    (h : ∀ as i a j m, p as i = .done a j m → j.bytes < i.bytes) (as : List α) {i : Cursor}
    (hi : i.bytes < n) (m : Mark) : manyWithin p n as i ≠ .miss m := by
  induction n generalizing as i m with
  | zero => exact absurd hi (Nat.not_lt_zero _)
  | succ n ih =>
    intro hm
    simp only [Parser.manyWithin] at hm
    split at hm
    case h_1 a j m' hp =>
      have hlt := h as i a j m' hp
      rw [if_neg (Nat.ne_of_lt hlt)] at hm
      cases hrest : Parser.manyWithin p n (a :: as) j with
      | miss m'' => exact ih (a :: as) (by omega) m'' hrest
      | done _ _ _ | halt _ => rw [hrest] at hm; cases hm
    case h_2 => cases hm
    case h_3 => cases hm

/-- A repetition misses for want of progress only. -/
theorem manyWith {p : List α → Parser α}
    (h : ∀ as i a j m, p as i = .done a j m → j.bytes < i.bytes) : Answers (manyWith p) :=
  fun _ => manyWithin h [] (Nat.lt_succ_self _)

end Answers

end Parser

theorem Grammar.advances_stringItem : Advances stringItem := by
  refine .orElse ?_ ?_
  · exact Advances.satisfy.bind (R := fun _ => True) fun _ => .pure trivial
  · exact Advances.satisfy.bind (R := fun _ => True) fun _ => .bind .satisfy fun _ _ => .pure trivial

/-- Every text has the tokens of itself, at the same places. -/
def Respacing.identity : Respacing where
  Place _ _ := True
  Lost := True
  Amid := Eq
  Behind := Eq
  Fresh := Eq
  Quoted := Eq
  left := id
  right := id
  amid_of_behind _ _ h := h
  amid_of_fresh _ _ h := .inl h
  lost_of_short h := h.elim
  point _ _ h := by rw [h]
  plain := ⟨fun h _ => by rw [h], fun h _ _ => by rw [h]⟩
  place_plain _ _ _ _ _ _ := trivial
  place_behindSpace _ _ _ := trivial
  space n := by
    refine (Parallel.refl trivial fun i a j m h => ?_).values fun _ _ _ => trivial
    exact gives_space.bytes_le h
  lineEnd n item := by
    refine (Parallel.refl trivial fun i a j m h => ?_).values fun _ _ _ => trivial
    exact gives_lineEnd.expect.bytes_le h
  divide n := by
    refine (Parallel.refl trivial fun i a j m h => ?_).values fun _ _ _ => trivial
    have ha : Advances (Grammar.operatorSign .divide) :=
      (Advances.text (by decide)).bind fun _ => .notFollowedBy
    exact ha.bytes_lt (gives_operatorSign _) h
  openQuote n := .refl trivial fun i a j m h => Advances.satisfy.bytes_lt .char h
  stringItem n := .refl trivial fun i a j m h => advances_stringItem.bytes_lt gives_stringItem h
  closeQuote n := .refl trivial fun i a j m h => Advances.satisfy.bytes_lt .char h
  nil_iff _ i j h := by rw [h]

namespace Grammar

theorem bytes_lt_of_declaration {known : List String} {d : Declaration}
    (h : declaration known i = .done d j m) : j.bytes < i.bytes :=
  Parallel.bytes_lt (fun _ => Respacing.declaration (W := .identity)) h

theorem answers_blank : Answers blank := by
  intro i m hm
  obtain ⟨a, m', h, -⟩ := reads_blank_skip i.chars
  rw [Cursor.ofChars_chars, hm] at h
  cases h

/-- A program is read, or an error stands at a place of its own. -/
theorem answers_program : Answers program := by
  refine answers_blank.bind fun _ => Answers.expect.bind fun _ => Answers.expect.bind fun x => ?_
  refine Answers.expect.bind fun _ => .bind (.manyWith fun _ _ _ _ _ => bytes_lt_of_declaration) ?_
  exact fun ds => Answers.expect.bind fun _ i m h => by cases h

end Grammar

end Primer
