import Primer.Proofs.Respacing.Progress

/-!
A repetition that goes on where another has ended. If the items of a repetition are read alike from two
texts as far as the second one has any, the reading of the first text goes on behind them as a repetition
that knows these items (`resumes_of_parallel`). What the readings answer is compared without their marks,
which differ.
-/

namespace Primer

/-- What a reply says apart from its mark: a value and what remains, or the error unless it misses. -/
def Reply.result : Reply α → Except (Option ReadError) (α × Cursor)
  | done a rest _ => .ok (a, rest)
  | miss _ => .error none
  | halt e => .error (some e)

@[simp] theorem Reply.result_after (r : Reply α) (m : Mark) : (r.after m).result = r.result := by
  cases r <;> rfl

namespace Parser

variable {p : Parser α} {q : Parser β} {f : α → Parser γ} {g : β → Parser δ} {i j : Cursor}

theorem result_bind (f : α → Parser γ) :
    ((p >>= f) i).result = (p i).result.bind fun x => (f x.1 x.2).result := by
  simp only [bind_apply, Parser.bind]
  cases p i with
  | done a rest m => exact Reply.result_after _ m
  | miss m => rfl
  | halt e => rfl

theorem result_bind_of_done (h : p i = .done a j m) : ((p >>= f) i).result = (f a j).result := by
  rw [result_bind, h]
  rfl

/-- Parsers that never miss and answer the same but for their values read the same but for these. -/
theorem Answers.read_eq_map {s t : String} {h : β → α} (hp : Answers p) (hq : Answers q)
    (hresult : (p (.ofString s)).result = (q (.ofString t)).result.map (Prod.map h id)) :
    p.read s = (q.read t).map h := by
  have hp := hp (.ofString s)
  have hq := hq (.ofString t)
  simp only [read]
  generalize p (.ofString s) = r at hp hresult
  generalize q (.ofString t) = r' at hq hresult
  cases r' with
  | miss m => exact absurd rfl (hq m)
  | done b j m =>
    cases r with
    | done a i m' =>
      cases hresult
      rfl
    | miss m' => exact absurd rfl (hp m')
    | halt e => cases hresult
  | halt e =>
    cases r with
    | halt e' =>
      cases hresult
      rfl
    | miss m' => exact absurd rfl (hp m')
    | done a i m' => cases hresult

/-! ## Repetitions -/

section
variable {p : List α → Parser α}

/-- What the items of a repetition know besides the earlier ones. -/
theorem manyWithin_append (k : Nat) (earlier old : List α) (i : Cursor) :
    manyWithin p k (earlier ++ old) i = manyWithin (fun earlier => p (earlier ++ old)) k earlier i := by
  induction k generalizing earlier i with
  | zero => rfl
  | succ k ih =>
    simp only [manyWithin]
    split
    · rw [← ih, List.cons_append]
    all_goals rfl

/-- The bound on the number of items does not show where every item reads something. -/
theorem manyWithin_eq (h : ∀ as i a j m, p as i = .done a j m → j.bytes < i.bytes) {k l : Nat}
    {as : List α} {i : Cursor} (hk : i.bytes < k) (hl : i.bytes < l) :
    manyWithin p k as i = manyWithin p l as i := by
  induction k generalizing l as i with
  | zero => exact absurd hk (Nat.not_lt_zero _)
  | succ k ih =>
    obtain ⟨l, rfl⟩ : ∃ l', l = l' + 1 := ⟨l - 1, by omega⟩
    simp only [manyWithin]
    split
    case h_1 a j m hp =>
      have hlt := h as i a j m hp
      rw [ih (l := l) (by omega) (by omega)]
    all_goals rfl

theorem result_manyWithin_of_done {k : Nat} {as : List α} {i j : Cursor} {a : α} {m : Mark}
    (h : p as i = .done a j m) (hne : j.bytes ≠ i.bytes) :
    (manyWithin p (k + 1) as i).result =
      (manyWithin p k (a :: as) j).result.map (Prod.map (a :: ·) id) := by
  simp only [manyWithin, h, if_neg hne]
  cases manyWithin p k (a :: as) j <;> rfl

end

namespace Parallel

variable {w : Comparison} {n d : Nat} {A B : Cursor → Cursor → Prop} {R : α → β → Prop}

/-- Where the second parser succeeds, the first does. -/
theorem exists_done (h : Parallel w n d A p q R B) (hi : i.bytes < n) (hij : A i j)
    (hq : q j = .done b j' m') : ∃ a i' m, p i = .done a i' m ∧ R a b ∧ Beyond d B i j i' j' := by
  have hmatch := h hi hij
  rw [hq] at hmatch
  generalize hr : p i = r at hmatch
  cases hmatch with
  | done value rest => exact ⟨_, _, _, rfl, value, rest⟩

/-- A step that the second reading makes on its way to a value, the first makes as well. -/
theorem step (h : Parallel w n d A p q R B) (hi : i.bytes < n) (hij : A i j)
    (hq : (q >>= g) j = .done c k m) : ∃ a b i' j' m', R a b ∧ B i' j' ∧ i'.bytes < n ∧
      g b j' = .done c k m' ∧ ∀ {γ : Type} (f : α → Parser γ), ((p >>= f) i).result = (f a i').result := by
  obtain ⟨b, j', _, m', hqj, hgb⟩ := done_of_bind hq
  obtain ⟨a, i', _, hpi, hab, hB, hbytes, -⟩ := h.exists_done hi hij hqj
  exact ⟨a, b, i', j', m', hab, hB, by omega, hgb, fun f => result_bind_of_done hpi⟩

end Parallel

/-- A repetition goes on at a place that corresponds to `j`, behind items that correspond to `ys`. -/
def Resumes (p : List α → Parser α) (R : α → β → Prop) (B : Cursor → Cursor → Prop) (k : Nat)
    (as : List α) (i : Cursor) (ys : List β) (j : Cursor) : Prop :=
  ∃ xs i', List.Forall₂ R xs ys ∧ B i' j ∧ (manyWithin p k as i).result =
    (manyWithin p (i'.bytes + 1) (xs.reverse ++ as) i').result.map (Prod.map (xs ++ ·) id)

namespace Resumes

variable {p : List α → Parser α} {R : α → β → Prop} {B : Cursor → Cursor → Prop} {k : Nat}
variable {as : List α} {ys : List β}

theorem nil (hp : ∀ as i a j m, p as i = .done a j m → j.bytes < i.bytes) (hk : i.bytes < k)
    (hij : B i j) : Resumes p R B k as i [] j := by
  refine ⟨[], i, .nil, hij, ?_⟩
  rw [manyWithin_eq hp hk (Nat.lt_succ_self _), List.reverse_nil, List.nil_append]
  cases (manyWithin p (i.bytes + 1) as i).result <;> rfl

theorem cons {a : α} {b : β} {i' : Cursor} {m : Mark} (hitem : p as i = .done a i' m)
    (hne : i'.bytes ≠ i.bytes) (hab : R a b) (h : Resumes p R B k (a :: as) i' ys j) :
    Resumes p R B (k + 1) as i (b :: ys) j := by
  obtain ⟨xs, l, hxs, hl, hresult⟩ := h
  refine ⟨a :: xs, l, .cons hab hxs, hl, ?_⟩
  rw [result_manyWithin_of_done hitem hne, hresult, List.reverse_cons, List.append_assoc,
    List.singleton_append]
  cases (manyWithin p (l.bytes + 1) (xs.reverse ++ a :: as) l).result <;> rfl

end Resumes

/-- Behind the items that are read from the second text, the first reading goes on as a repetition that
knows these items. -/
theorem resumes_of_parallel {w : Comparison} {n : Nat} {A B : Cursor → Cursor → Prop} {R : α → β → Prop}
    {p : List α → Parser α} {q : List β → Parser β}
    (h : ∀ as bs, List.Forall₂ R as bs → Parallel w n 1 A (p as) (q bs) R B)
    (hB : ∀ i j, B i j → A i j ∨ j.chars = []) (hend : ∀ bs, Misses (q bs) [])
    (hp : ∀ as i a j m, p as i = .done a j m → j.bytes < i.bytes) {k l : Nat} {as : List α}
    {bs ys : List β} {i j j' : Cursor} {m : Mark} (hk : i.bytes < k) (hi : i.bytes < n) (hij : B i j)
    (hearlier : List.Forall₂ R as bs) (hq : manyWithin q l bs j = .done ys j' m) :
    Resumes p R B k as i ys j' := by
  induction l generalizing k as bs ys i j m with
  | zero => cases hq
  | succ l ih =>
    simp only [manyWithin] at hq
    split at hq
    case h_1 b j₁ m₁ hitem' =>
      have hA : A i j := by
        refine (hB i j hij).resolve_right fun hj => ?_
        obtain ⟨m', hmiss⟩ := hend bs
        rw [← hj, Cursor.ofChars_chars, hitem'] at hmiss
        cases hmiss
      obtain ⟨a, i₁, m₂, hitem, hab, hB₁, hi₁, hj₁⟩ := (h as bs hearlier).exists_done hi hA hitem'
      rw [if_neg (by omega)] at hq
      obtain ⟨k, rfl⟩ : ∃ k', k = k' + 1 := ⟨k - 1, by omega⟩
      cases hrest : manyWithin q l (b :: bs) j₁ with
      | done ys' j₂ m₃ =>
        rw [hrest] at hq
        cases hq
        exact .cons hitem (by omega) hab
          (ih (by omega) (by omega) hB₁ (.cons hab hearlier) hrest)
      | miss _ | halt _ =>
        rw [hrest] at hq
        cases hq
    case h_2 =>
      cases hq
      exact .nil hp hk hij
    case h_3 => cases hq

end Parser

end Primer
