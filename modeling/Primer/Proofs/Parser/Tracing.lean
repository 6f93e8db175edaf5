import Primer.Proofs.Grammar.Lexical
import Primer.Proofs.Syntax.Items

/-!
Where the items of a value stand in the text that it was read from. `Along cs xs rest` says that the
items stand one after the other in the part of the text `cs` that comes before `rest`; `Traces p R` that
wherever `p` succeeds, items that `R` relates to its value stand along what it reads. As the steps of a
production add their items one behind the other, the rule for sequences (`Traces.bind`) hands the items
of the first step to the second.
-/

namespace Primer

namespace Item.Spans

variable {x : Item} {cs rest : List Char}

theorem suffix (h : x.Spans cs rest) : rest <:+ cs := ⟨_, h.text.symm⟩

theorem byteCount_lt (h : x.Spans cs rest) : byteCount rest < byteCount cs := by
  rw [h.text]
  apply byteCount_lt_of_append
  exact fun hnil => h.nonempty (String.toList_eq_nil_iff.1 hnil)

/-- An assignment spans the name that it starts with. -/
theorem assignment {root : Ident} (h : (Item.name root).Spans cs rest) :
    (Item.assignment root root.position).Spans cs rest := ⟨h.place, h.text, h.ends, h.nonempty⟩

end Item.Spans

/-- The items stand in the text `cs` one after the other, all of them before `rest`. An item that is no
token leaves its text to the next one. -/
inductive Along : List Char → List Item → List Char → Prop where
  | nil (h : rest <:+ cs) : Along cs [] rest
  | token (hplace : place <:+ cs) (hx : x.Spans place next) (hxs : Along next xs rest) :
    Along cs (x :: xs) rest
  | lead (hplace : place <:+ cs) (hx : x.Spans place next) (htoken : x.isToken = false)
    (hxs : Along place xs rest) : Along cs (x :: xs) rest

namespace Along

variable {cs ds rest : List Char} {x : Item} {xs ys : List Item}

theorem single (h : x.Spans cs rest) : Along cs [x] rest :=
  .token List.suffix_rfl h (.nil List.suffix_rfl)

theorem of_suffix (h : Along cs xs rest) (hs : cs <:+ ds) : Along ds xs rest := by
  cases h with
  | nil h => exact .nil (h.trans hs)
  | token hplace hx hxs => exact .token (hplace.trans hs) hx hxs
  | lead hplace hx htoken hxs => exact .lead (hplace.trans hs) hx htoken hxs

theorem append (h : Along cs xs ds) (h' : Along ds ys rest) : Along cs (xs ++ ys) rest := by
  induction h with
  | nil hs => exact h'.of_suffix hs
  | token hplace hx _ ih => exact .token hplace hx (ih h')
  | lead hplace hx htoken _ ih => exact .lead hplace hx htoken (ih h')

theorem spans (h : Along cs xs rest) :
    ∀ x ∈ xs, ∃ place next, place <:+ cs ∧ x.Spans place next := by
  induction h with
  | nil => simp
  | token hplace hx _ ih =>
    refine List.forall_mem_cons.2 ⟨⟨_, _, hplace, hx⟩, fun y hy => ?_⟩
    obtain ⟨place, next, hs, hy⟩ := ih y hy
    exact ⟨place, next, (hs.trans hx.suffix).trans hplace, hy⟩
  | lead hplace hx _ _ ih =>
    refine List.forall_mem_cons.2 ⟨⟨_, _, hplace, hx⟩, fun y hy => ?_⟩
    obtain ⟨place, next, hs, hy⟩ := ih y hy
    exact ⟨place, next, hs.trans hplace, hy⟩

theorem toEnd_le (h : Along cs xs rest) : ∀ x ∈ xs, x.position.toEnd ≤ byteCount cs := by
  intro x hx
  obtain ⟨place, next, hs, hx⟩ := h.spans x hx
  rw [hx.place]
  exact byteCount_le_of_suffix hs

end Along

/-- The tokens among the items come in the order of the text. -/
def Descending (xs : List Item) : Prop :=
  (xs.filter (·.isToken)).Pairwise fun x y => y.position.toEnd < x.position.toEnd

theorem Along.descending (h : Along cs xs rest) : Descending xs := by
  induction h with
  | nil => exact .nil
  | token hplace hx hxs ih =>
    rw [Descending, List.filter_cons]
    split
    · refine .cons (fun y hy => ?_) ih
      rw [hx.place]
      exact Nat.lt_of_le_of_lt (hxs.toEnd_le y (List.mem_filter.1 hy).1) hx.byteCount_lt
    · exact ih
  | lead _ _ htoken _ ih =>
    rw [Descending, List.filter_cons_of_neg (by simp [htoken])]
    exact ih

namespace Parser

/-- Wherever the parser succeeds, items that `R` relates to its value stand along what it reads. -/
def Traces (p : Parser α) (R : α → List Item → Prop) : Prop :=
  ∀ ⦃i a j m⦄, p i = .done a j m → ∃ xs, Along i.chars xs j.chars ∧ R a xs

/-- The items of its value stand along what the parser reads. -/
def Spells (p : Parser α) (items : α → List Item) : Prop := Traces p fun a xs => xs = items a

variable {p q : Parser α} {k : α → Parser β} {P : α → Prop}
variable {R : α → List Item → Prop} {S : β → List Item → Prop} {items : α → List Item}

namespace Traces

theorem mono {R' : α → List Item → Prop} (h : Traces p R) (hR : ∀ a xs, R a xs → R' a xs) :
    Traces p R' := by
  intro i a j m hp
  obtain ⟨xs, hxs, ha⟩ := h hp
  exact ⟨xs, hxs, hR a xs ha⟩

theorem and_gives (h : Traces p R) (hg : Gives p P) : Traces p fun a xs => R a xs ∧ P a := by
  intro i a j m hp
  obtain ⟨xs, hxs, ha⟩ := h hp
  exact ⟨xs, hxs, ha, (hg hp).2⟩

/-! ## Sequence and choice -/

theorem pure {a : α} (h : R a []) : Traces (pure a) R := by
  intro i b j m hp
  rw [pure_apply] at hp
  cases hp
  exact ⟨[], .nil List.suffix_rfl, h⟩

theorem bind (hp : Traces p R) (hk : ∀ a xs, R a xs → Traces (k a) fun b ys => S b (xs ++ ys)) :
    Traces (p >>= k) S := by
  intro i b l m h
  obtain ⟨a, j, m', m'', hpi, hka⟩ := done_of_bind h
  obtain ⟨xs, hxs, ha⟩ := hp hpi
  obtain ⟨ys, hys, hb⟩ := hk a xs ha hka
  exact ⟨xs ++ ys, hxs.append hys, hb⟩

/-- After something without items, those of the next step are all. -/
theorem skip (hp : Gives p P) (hk : ∀ a, P a → Traces (k a) S) : Traces (p >>= k) S := by
  intro i b l m h
  obtain ⟨a, j, m', m'', hpi, hka⟩ := done_of_bind h
  obtain ⟨hs, ha⟩ := hp hpi
  obtain ⟨ys, hys, hb⟩ := hk a ha hka
  exact ⟨ys, hys.of_suffix hs, hb⟩

theorem orElse (hp : Traces p R) (hq : Traces q R) : Traces (p <|> q) R := by
  intro i a j m h
  simp only [orElse_apply, Parser.orElse] at h
  split at h
  · obtain ⟨m', hqi⟩ := done_of_after h
    exact hq hqi
  · exact hp h

theorem maybe (h : Traces p R) :
    Traces (maybe p) fun o xs => (o = none ∧ xs = []) ∨ ∃ a, o = some a ∧ R a xs := by
  intro i o j m hp
  simp only [Parser.maybe] at hp
  split at hp
  case h_1 a j' m' hpi =>
    cases hp
    obtain ⟨xs, hxs, ha⟩ := h hpi
    exact ⟨xs, hxs, .inr ⟨a, rfl, ha⟩⟩
  case h_2 =>
    cases hp
    exact ⟨[], .nil List.suffix_rfl, .inl ⟨rfl, rfl⟩⟩
  case h_3 => cases hp

theorem expect {item : String} (h : Traces p R) : Traces (Grammar.expect item p) R := by
  intro i a j m hp
  simp only [Grammar.expect] at hp
  split at hp
  · cases hp
  · exact h hp

/-! ## Repetition -/

/-- What holds of no items and is kept by each further one holds of all of them. -/
theorem manyWith {p : List α → Parser α} {I : List α → List Item → Prop} (hnil : I [] [])
    (hcons : ∀ earlier xs, I earlier xs → Traces (p earlier) fun a ys => I (a :: earlier) (xs ++ ys)) :
    Traces (manyWith p) fun as xs => I as.reverse xs := by
  have go : ∀ n earlier xs, I earlier xs →
      Traces (manyWithin p n earlier) fun as ys => I (as.reverse ++ earlier) (xs ++ ys) := by
    intro n
    induction n with
    | zero => intro earlier xs _ i as j m h; cases h
    | succ n ih =>
      intro earlier xs hinv i as j m h
      simp only [manyWithin] at h
      split at h
      case h_1 a l m' hpi =>
        obtain ⟨ys, hys, ha⟩ := hcons earlier xs hinv hpi
        split at h
        · cases h
        · cases hrec : manyWithin p n (a :: earlier) l with
          | done as' l' m'' =>
            rw [hrec] at h
            cases h
            obtain ⟨zs, hzs, has⟩ := ih (a :: earlier) (xs ++ ys) ha hrec
            refine ⟨ys ++ zs, hys.append hzs, ?_⟩
            simpa [List.append_assoc] using has
          | miss _ | halt _ => rw [hrec] at h; cases h
      case h_2 =>
        cases h
        exact ⟨[], .nil List.suffix_rfl, by simpa using hinv⟩
      case h_3 => cases h
  intro i as j m h
  obtain ⟨xs, hxs, has⟩ := go _ [] [] hnil h
  exact ⟨xs, hxs, by simpa using has⟩

theorem fix {f : Parser α → Parser α} (hf : ∀ p, Traces p R → Traces (f p) R) :
    Traces (fix f) R := by
  have hwithin : ∀ n, Traces (fixWithin f n) R := by
    intro n
    induction n with
    | zero => intro i a j m h; cases h
    | succ n ih => exact hf _ ih
  exact fun _ _ _ _ h => hwithin _ h

end Traces

namespace Spells

theorem bind (hp : Spells p items) (hk : ∀ a, Traces (k a) fun b ys => S b (items a ++ ys)) :
    Traces (p >>= k) S := by
  refine Traces.bind hp fun a xs hxs => ?_
  subst hxs
  exact hk a

theorem pure {a : α} (h : items a = []) : Spells (pure a) items := Traces.pure h.symm

theorem many (h : Spells p items) : Spells (many p) fun as => as.flatMap items := by
  have hmany : Traces (Parser.manyWith fun _ => p) fun as xs => xs = as.reverse.reverse.flatMap items :=
    Traces.manyWith (I := fun as xs => xs = as.reverse.flatMap items) rfl fun earlier xs hxs =>
      h.mono fun a ys hys => by simp [hxs, hys]
  exact hmany.mono fun as xs hxs => by simpa using hxs

theorem sepBy1 {separator : Parser β} (h : Spells p items) (hsep : Gives separator Q) :
    Spells (sepBy1 p separator) fun as => as.flatMap items := by
  refine h.bind fun a => ?_
  refine Spells.bind (many (Traces.skip hsep fun _ _ => h)) fun as => ?_
  exact Traces.pure (by simp)

end Spells

end Parser

end Primer
