import Primer.Proofs.Grammar.Expr
import Primer.Proofs.Parser.Tracing

/-!
The places of names, operators and negations in expressions. Every production is taken with a parser for
the expressions in it that has their items stand along what it reads. A chain becomes a tree whose items
are those of the chain in the same order, however its operators group.
-/

namespace Primer

/-! ## Trees -/

namespace Segment

/-- The items of the name, of the arguments and of the indices, as they stand. -/
def items (s : Segment) : List Item :=
  .name s.ident :: ((s.args.getD []).flatMap Expr.items ++ s.indices.flatMap Expr.items)

attribute [local simp] Path.items

theorem items_foldl_index (base : Path) (indices : List Expr) :
    (indices.foldl .index base).items = base.items ++ indices.flatMap Expr.items := by
  induction indices generalizing base with
  | nil => simp
  | cons e indices ih => simp [ih]

theorem items_start (s : Segment) : s.start.items = s.items := by
  obtain ⟨x, args, indices⟩ := s
  rw [start, items_foldl_index]
  cases args <;> simp [items]

theorem items_extend (s : Segment) (base : Path) : (s.extend base).items = base.items ++ s.items := by
  obtain ⟨x, args, indices⟩ := s
  rw [extend, items_foldl_index]
  cases args <;> simp [items]

/-- The items of a path are those of its segments one after the other. -/
theorem items_foldl_extend (base : Path) (segments : List Segment) :
    (segments.foldl (fun p s => s.extend p) base).items =
      base.items ++ segments.flatMap Segment.items := by
  induction segments generalizing base with
  | nil => simp
  | cons s segments ih => simp [ih, items_extend]

theorem root_foldl_index (base : Path) (indices : List Expr) :
    (indices.foldl .index base).root = base.root := by
  induction indices generalizing base with
  | nil => rfl
  | cons e indices ih => simp [ih, Path.root]

theorem root_start (s : Segment) : s.start.root = s.ident := by
  rw [start, root_foldl_index]
  split <;> rfl

/-- Wherever a path leads, it starts at its first segment. -/
theorem root_foldl_extend (base : Path) (segments : List Segment) :
    (segments.foldl (fun p s => s.extend p) base).root = base.root := by
  induction segments generalizing base with
  | nil => rfl
  | cons s segments ih =>
    rw [List.foldl_cons, ih, extend, root_foldl_index]
    split <;> rfl

end Segment

namespace Link

def items (l : Link) : List Item := .operator l.operator l.position :: l.operand.items

end Link

/-- The items of an operand, or the one of an operator. -/
def ChainPart.items : ChainPart → List Item
  | .operand e => e.items
  | .operator position o => [.operator o position]

/-- The items of an expression that is made of a chain stand as in the chain, whatever the tree. -/
theorem ChainTree.items_toExpr (t : ChainTree) : t.toExpr.items = t.parts.flatMap ChainPart.items := by
  induction t with
  | operand e => simp [toExpr, parts, ChainPart.items]
  | node position o left right ihleft ihright =>
    simp [toExpr, parts, ChainPart.items, Expr.items, ihleft, ihright]

/-- The operators stand between the operands, as in the text. -/
theorem Expr.items_ofChain (first : Expr) (links : List Link) :
    (Expr.ofChain first links).items = first.items ++ links.flatMap Link.items := by
  have hlink (l : Link) : l.parts.flatMap ChainPart.items = l.items := by
    simp [Link.parts, ChainPart.items, Link.items]
  rw [← ChainTree.toExpr_ofChain, ChainTree.items_toExpr, ChainTree.parts_ofChain, chainParts,
    List.flatMap_cons, List.flatMap_assoc]
  simp only [hlink]
  rfl

/-! ## Words and signs -/

theorem Operator.text_ne_empty (o : Operator) : o.text ≠ "" := by
  cases o <;> decide

namespace Parser

variable {i j : Cursor} {m : Mark}

theorem done_of_text {s : String} (h : text s i = .done u j m) : i.chars = s.toList ++ j.chars := by
  simp only [text] at h
  split at h
  case isTrue hpre =>
    cases h
    obtain ⟨tail, htail⟩ := List.isPrefixOf_iff_prefix.1 hpre
    rw [Cursor.chars_skip, ← htail, List.drop_left]
  · cases h

theorem done_of_satisfy {t : Char → Bool} (h : satisfy t i = .done c j m) :
    i.chars = c :: j.chars := by
  simp only [satisfy] at h
  split at h
  case h_1 d cs hi =>
    split at h
    · cases h
      simp [hi]
    · cases h
  case h_2 => cases h

theorem head_of_takeWhile {t : Char → Bool} {cs : List Char} :
    ∀ c ∈ (cs.drop (cs.takeWhile t).length).head?, t c = false := by
  induction cs with
  | nil => simp
  | cons d cs ih =>
    cases hd : t d with
    | true => simpa [hd] using ih
    | false => simp [hd]

/-- What was taken stands before the rest, and the rest starts with no more of it. -/
theorem done_of_takeWhile {t : Char → Bool} (h : takeWhile t i = .done a j m) :
    i.chars = a ++ j.chars ∧ ∀ c ∈ j.chars.head?, t c = false := by
  cases h
  refine ⟨?_, head_of_takeWhile⟩
  exact (List.prefix_iff_eq_append.1 (List.takeWhile_prefix t)).symm

theorem done_of_notFollowedBy {t : Char → Bool} (h : notFollowedBy (satisfy t) i = .done u j m) :
    j = i ∧ ∀ c ∈ i.chars.head?, t c = false := by
  simp only [notFollowedBy] at h
  split at h
  · cases h
  case h_2 m' hmiss =>
    cases h
    refine ⟨rfl, fun c hc => ?_⟩
    obtain ⟨cs, hcs⟩ := List.head?_eq_some_iff.1 hc
    cases htrue : t c with
    | false => rfl
    | true => simp [satisfy, hcs, htrue] at hmiss
  · cases h

/-- One of the parsers succeeded; the marks of those before it are of no account here. -/
theorem done_of_choice {ps : List (Parser α)} (h : choice ps i = .done a j m) :
    ∃ p ∈ ps, ∃ m', p i = .done a j m' := by
  induction ps generalizing m with
  | nil => cases h
  | cons p ps ih =>
    simp only [choice, orElse_apply, Parser.orElse] at h
    split at h
    · obtain ⟨m', hrest⟩ := done_of_after h
      obtain ⟨q, hq, hdone⟩ := ih hrest
      exact ⟨q, List.mem_cons_of_mem p hq, hdone⟩
    · exact ⟨p, List.mem_cons_self, m, h⟩

theorem done_of_orElse {p q : Parser α} (h : (p <|> q) i = .done a j m) :
    p i = .done a j m ∨ ∃ m', q i = .done a j m' := by
  simp only [orElse_apply, Parser.orElse] at h
  split at h
  · exact .inr (done_of_after h)
  · exact .inl h

/-- If each item is read from its text, a repetition is read from the texts one after the other. -/
theorem chars_of_many {p : Parser α} {text : α → List Char}
    (hp : ∀ i a j m, p i = .done a j m → i.chars = text a ++ j.chars) {as : List α}
    (h : many p i = .done as j m) : i.chars = as.flatMap text ++ j.chars := by
  have go (n : Nat) : ∀ earlier i as j m, manyWithin (fun _ => p) n earlier i = .done as j m →
      i.chars = as.flatMap text ++ j.chars := by
    induction n with
    | zero =>
      intro earlier i as j m h
      cases h
    | succ n ih =>
      intro earlier i as j m h
      simp only [manyWithin] at h
      split at h
      case h_1 a k m' hpi =>
        split at h
        · cases h
        · cases hrest : manyWithin (fun _ => p) n (a :: earlier) k with
          | done bs l m'' =>
            rw [hrest] at h
            cases h
            rw [hp i a k m' hpi, ih _ _ _ _ _ hrest, List.flatMap_cons, List.append_assoc]
          | miss _ | halt _ => rw [hrest] at h; cases h
      case h_2 =>
        cases h
        rfl
      case h_3 => cases h
  exact go _ [] i as j m h

/-- What the parser reads is a single item at the place where it starts. -/
def Heads (p : Parser α) (item : α → Position → Item) : Prop :=
  ∀ ⦃i a j m⦄, p i = .done a j m → (item a i.position).Spans i.chars j.chars

/-- What is read next where the parser stands gets that place. -/
theorem Traces.headed {p : Parser α} {item : α → Position → Item} {k : Cursor → α → Parser β}
    {S : β → List Item → Prop} (hp : Heads p item)
    (hk : ∀ start a, Traces (k start a) fun b xs => S b (item a start.position :: xs)) :
    Traces (here >>= fun start => p >>= k start) S := by
  intro i b l m h
  obtain ⟨start, j, m₁, m₂, hhere, h⟩ := done_of_bind h
  cases hhere
  obtain ⟨a, j, m₁, m₂, hpi, hka⟩ := done_of_bind h
  obtain ⟨xs, hxs, hb⟩ := hk _ a hka
  exact ⟨_, (Along.single (hp hpi)).append hxs, hb⟩

end Parser

namespace Grammar

open Primer.Parser

/-- A word is read from its text, and no character of a name follows. -/
theorem done_of_word {w : String} {i j : Cursor} {m : Mark} (h : word w i = .done u j m) :
    i.chars = w.toList ++ j.chars ∧ ∀ c ∈ j.chars.head?, isNameChar c = false := by
  obtain ⟨_, j', m₁, m₂, htext, hend⟩ := done_of_bind h
  obtain ⟨rfl, hhead⟩ := done_of_notFollowedBy hend
  exact ⟨done_of_text htext, hhead⟩

theorem heads_word {w : String} (hw : w ≠ "") : Heads (word w) fun _ => .keyword w := by
  intro i a j m h
  obtain ⟨htext, hend⟩ := done_of_word h
  exact ⟨i.bytes_eq, htext, fun _ => hend, hw⟩

/-- A name stands where it starts, and spans its own characters. -/
theorem done_of_ident {x : Ident} {i j : Cursor} {m : Mark} (h : ident i = .done x j m) :
    x.position = i.position ∧ (Item.name x).Spans i.chars j.chars := by
  obtain ⟨start, j', m₁, m₂, hhere, h⟩ := done_of_bind h
  cases hhere
  obtain ⟨name, j', m₁, m₂, hlabel, h⟩ := done_of_bind h
  have hx : x = ⟨i.position, name⟩ ∧ j = j' := by
    split at h
    · cases h
    · split at h
      · cases h
      · rw [pure_apply] at h
        cases h
        exact ⟨rfl, rfl⟩
  obtain ⟨rfl, rfl⟩ := hx
  refine ⟨rfl, ?_⟩
  obtain ⟨c, l, _, _, hfirst, hlabel⟩ := done_of_bind hlabel
  obtain ⟨cs, l', _, _, hothers, hlabel⟩ := done_of_bind hlabel
  rw [pure_apply] at hlabel
  cases hlabel
  obtain ⟨htext, hend⟩ := done_of_takeWhile hothers
  refine ⟨i.bytes_eq, ?_, fun _ => hend, ?_⟩
  · rw [done_of_satisfy hfirst, htext]
    simp [Item.text]
  · intro hempty
    simpa [Item.text] using congrArg String.toList hempty

/-- A name is its own item. -/
theorem spells_ident : Spells ident fun x => [.name x] := by
  intro i x j m h
  exact ⟨_, .single (done_of_ident h).2, rfl⟩

theorem done_of_expect {item : String} {p : Parser α} {i j : Cursor} {m : Mark}
    (h : expect item p i = .done a j m) : p i = .done a j m := by
  simp only [expect] at h
  split at h
  · cases h
  · exact h

theorem chars_of_stringItem {item : List Char} {i j : Cursor} {m : Mark}
    (h : stringItem i = .done item j m) : i.chars = item ++ j.chars := by
  rcases done_of_orElse h with h | ⟨m', h⟩
  · obtain ⟨c, k, _, _, hc, h⟩ := done_of_bind h
    cases h
    exact done_of_satisfy hc
  · obtain ⟨b, k, _, _, hb, h⟩ := done_of_bind h
    obtain ⟨c, l, _, _, hc, h⟩ := done_of_bind h
    cases h
    rw [done_of_satisfy hb, done_of_satisfy hc]
    rfl

/-- A string is read from its text and the quotes around it. -/
theorem exists_text_of_string {v : Literal} {i j : Cursor} {m : Mark} (h : string i = .done v j m) :
    ∃ text, v = .string text ∧ i.chars = '"' :: (text.toList ++ '"' :: j.chars) := by
  obtain ⟨_, k, _, _, hopen, h⟩ := done_of_bind h
  obtain ⟨items, l, _, _, hitems, h⟩ := done_of_bind (done_of_expect h)
  obtain ⟨_, l', _, _, hclose, h⟩ := done_of_bind h
  obtain ⟨c, _, _, _, hc, hopen⟩ := done_of_bind hopen
  obtain ⟨d, _, _, _, hd, hclose⟩ := done_of_bind hclose
  cases hopen
  cases hclose
  cases h
  obtain rfl : c = '"' := (Gives.char hc).2
  obtain rfl : d = '"' := (Gives.char hd).2
  have hmany : k.chars = items.flatMap id ++ l.chars :=
    chars_of_many (fun _ _ _ _ => chars_of_stringItem) hitems
  refine ⟨_, rfl, ?_⟩
  rw [done_of_satisfy hc, hmany, done_of_satisfy hd, String.toList_ofList, List.flatMap_id]

theorem done_of_operatorSign {o : Operator} {i j : Cursor} {m : Mark}
    (h : operatorSign o i = .done u j m) : i.chars = o.text.toList ++ j.chars ∧
      (o.isBoolean = true → ∀ c ∈ j.chars.head?, isNameChar c = false) := by
  cases o with
  | divide =>
    obtain ⟨_, j', m₁, m₂, htext, hend⟩ := done_of_bind h
    obtain ⟨rfl, -⟩ := done_of_notFollowedBy hend
    exact ⟨done_of_text htext, by simp [Operator.isBoolean]⟩
  | and | or => exact ⟨(done_of_word h).1, fun _ => (done_of_word h).2⟩
  | _ => exact ⟨done_of_text h, by simp [Operator.isBoolean]⟩

theorem heads_operator : Heads operator .operator := by
  intro i o j m h
  obtain ⟨p, hp, m', h⟩ := done_of_choice h
  obtain ⟨o', -, rfl⟩ := List.mem_map.1 hp
  obtain ⟨_, j', m₁, m₂, hsign, h⟩ := done_of_bind h
  rw [pure_apply] at h
  cases h
  obtain ⟨htext, hend⟩ := done_of_operatorSign hsign
  exact ⟨i.bytes_eq, htext, hend, Operator.text_ne_empty o⟩

section
variable {p : Parser α} {items : α → List Item}

theorem spells_afterSpace (h : Spells p items) : Spells (afterSpace p) items :=
  Traces.skip gives_space fun _ _ => h

theorem spells_spaced (h : Spells p items) : Spells (spaced p) items := by
  refine Traces.skip gives_space fun _ _ => h.bind fun a => ?_
  exact Traces.skip gives_space fun _ _ => Traces.pure (by simp)

end

/-! ## Expressions -/

variable {x : Parser Expr}

theorem spells_callArguments (hx : Spells x Expr.items) :
    Spells (callArguments x) fun args => args.flatMap Expr.items := by
  refine Traces.skip (.discard .char) fun _ _ => ?_
  have hargs : Spells
      ((do discard <| lookAhead (afterSpace (char ')')); return []) <|>
        sepBy1 (spaced x) (char ',')) fun args => args.flatMap Expr.items := by
    refine Traces.orElse ?_ (Spells.sepBy1 (spells_spaced hx) .char)
    exact Traces.skip (.discard (.lookAhead (gives_afterSpace .char))) fun _ _ => Spells.pure rfl
  refine hargs.bind fun args => ?_
  exact Traces.skip (.discard (.expect (gives_afterSpace .char))) fun _ _ => Traces.pure (by simp)

theorem spells_index (hx : Spells x Expr.items) : Spells (index x) Expr.items := by
  refine Traces.skip (.discard .char) fun _ _ => ?_
  refine Spells.bind (spells_spaced hx).expect fun e => ?_
  exact Traces.skip (.discard (.expect .char)) fun _ _ => Traces.pure (by simp)

/-- The items of a segment are read in their order. -/
theorem spells_segment (hx : Spells x Expr.items) : Spells (segment x) Segment.items := by
  refine spells_ident.bind fun name => ?_
  refine (Traces.maybe (spells_callArguments hx)).bind fun args xs hargs => ?_
  refine (spells_index hx).many.bind fun indices => Traces.pure ?_
  rcases hargs with ⟨rfl, rfl⟩ | ⟨args, rfl, rfl⟩ <;> simp [Segment.items]

theorem spells_path (hx : Spells x Expr.items) : Spells (path x) Path.items := by
  refine (spells_segment hx).bind fun first => ?_
  have hmember : Spells (do discard <| char '.'; expect "member name after '.'" (segment x))
      Segment.items := Traces.skip (.discard .char) fun _ _ => (spells_segment hx).expect
  refine hmember.many.bind fun others => Traces.pure ?_
  simp [Segment.items_foldl_extend, Segment.items_start]

/-- A path starts with its root. -/
theorem root_of_path {q : Path} {i j : Cursor} {m : Mark} (h : path x i = .done q j m) :
    q.root.position = i.position ∧ ∃ rest, (Item.name q.root).Spans i.chars rest := by
  obtain ⟨first, j₁, _, _, hfirst, h⟩ := done_of_bind h
  obtain ⟨others, j₂, _, _, -, h⟩ := done_of_bind h
  rw [pure_apply] at h
  cases h
  obtain ⟨name, j₃, _, _, hname, hfirst⟩ := done_of_bind hfirst
  obtain ⟨args, j₄, _, _, -, hfirst⟩ := done_of_bind hfirst
  obtain ⟨indices, j₅, _, _, -, hfirst⟩ := done_of_bind hfirst
  rw [pure_apply] at hfirst
  cases hfirst
  rw [Segment.root_foldl_extend, Segment.root_start]
  exact ⟨(done_of_ident hname).1, _, (done_of_ident hname).2⟩

theorem spells_value (hx : Spells x Expr.items) : Spells (value x) Expr.items := by
  refine Traces.orElse ?_ ?_
  · exact Traces.skip gives_literal fun v _ => Spells.pure rfl
  · exact (spells_path hx).bind fun q => Traces.pure (by simp [Expr.items])

theorem spells_parenthesized (hx : Spells x Expr.items) : Spells (parenthesized x) Expr.items := by
  refine Traces.skip (.discard .char) fun _ _ => ?_
  refine Spells.bind (spells_spaced hx).expect fun e => ?_
  exact Traces.skip (.discard (.expect .char)) fun _ _ => Traces.pure (by simp)

/-- The word is an item of its own before those of the operand. -/
theorem spells_negation {p : Parser Expr} (hp : Spells p Expr.items) :
    Spells (negation p) Expr.items := by
  refine Traces.headed (heads_word (by decide)) fun start _ => ?_
  exact Spells.bind (spells_afterSpace hp).expect fun e => Traces.pure (by simp [Expr.items])

/-- By the recursion of `operand`. -/
theorem spells_operand (hx : Spells x Expr.items) : Spells (operand x) Expr.items := by
  refine Traces.fix fun p hp => ?_
  exact (spells_negation hp).orElse ((spells_parenthesized hx).orElse (spells_value hx))

theorem spells_link (hx : Spells x Expr.items) : Spells (link x) Link.items := by
  refine Traces.skip gives_space fun _ _ => Traces.headed heads_operator fun start o => ?_
  refine Spells.bind (spells_afterSpace (spells_operand hx)).expect fun e => ?_
  exact Traces.pure (by simp [Link.items])

/-- Every expression spells its items: they stand in the text where they say, in the order of the text. -/
theorem spells_expression : Spells expression Expr.items := by
  refine Traces.fix fun x hx => (spells_operand hx).bind fun first => ?_
  refine (spells_link hx).many.bind fun links => Traces.pure ?_
  simp [Expr.items_ofChain]

end Grammar

end Primer
