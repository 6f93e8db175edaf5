import Primer.Proofs.RoundTrip.Literal
import Primer.Proofs.Syntax.Legal

/-!
String literals and brackets in the C++ text. A place lies outside of all string literals or within
one, and only what stands outside counts for how deep it lies in brackets (`nest?`). The pieces that
lines are put together from are `Neat`: they close their strings and their parentheses and keep clear of
braces and line ends.
-/

namespace Primer.Target

/-! ## String literals -/

/-- Where a place lies in the C++ text: outside of string literals, within one, or within one behind
a backslash. -/
inductive Zone where
  | code
  | quoted
  | escaped
deriving DecidableEq

namespace Zone

/-- The zone behind one more character. -/
def next : Zone → Char → Zone
  | code, c => if c = '"' then quoted else code
  | quoted, c => if c = '"' then code else if c = '\\' then escaped else quoted
  | escaped, _ => quoted

/-- The zone behind the characters. -/
def after (z : Zone) (cs : List Char) : Zone := cs.foldl next z

@[simp] theorem after_nil (z : Zone) : z.after [] = z := rfl

@[simp] theorem after_cons (z : Zone) (c : Char) (cs : List Char) :
    z.after (c :: cs) = (z.next c).after cs := rfl

@[simp] theorem after_append (z : Zone) (cs ds : List Char) :
    z.after (cs ++ ds) = (z.after cs).after ds := List.foldl_append

theorem next_quoted {c : Char} (hc : c ∉ ['\\', '"', '\r', '\n']) : quoted.next c = quoted := by
  simp only [List.mem_cons, List.not_mem_nil, or_false, not_or] at hc
  rw [next, if_neg hc.2.1, if_neg hc.1]

theorem after_legalText {cs : List Char} (h : LegalText cs) : quoted.after cs = quoted :=
  h.foldl_eq (fun _ => next_quoted) rfl fun _ => rfl

/-- No string ends within a legal text. -/
theorem after_ne_code {cs : List Char} (h : LegalText cs) {before after : List Char}
    (hcs : cs = before ++ after) : quoted.after before ≠ code := by
  rcases h.foldl_within (fun _ => next_quoted) rfl (fun _ => rfl) hcs with hinside | hescaped
  · rw [Zone.after, hinside]
    decide
  · rw [Zone.after, hescaped]
    decide

end Zone

/-- The characters outside of string literals, quotes left out. -/
def unquoted : Zone → List Char → List Char
  | _, [] => []
  | z, c :: cs => (if z = .code ∧ c ≠ '"' then [c] else []) ++ unquoted (z.next c) cs

theorem unquoted_append (z : Zone) (cs ds : List Char) :
    unquoted z (cs ++ ds) = unquoted z cs ++ unquoted (z.after cs) ds := by
  induction cs generalizing z with
  | nil => rfl
  | cons c cs ih => rw [List.cons_append, unquoted, unquoted, ih, List.append_assoc, Zone.after_cons]

theorem unquoted_of_no_quote {cs : List Char} (h : '"' ∉ cs) :
    Zone.code.after cs = .code ∧ unquoted .code cs = cs := by
  induction cs with
  | nil => exact ⟨rfl, rfl⟩
  | cons c cs ih =>
    rw [List.mem_cons, not_or] at h
    obtain ⟨hzone, htext⟩ := ih h.2
    have hnext : Zone.code.next c = .code := if_neg (Ne.symm h.1)
    rw [Zone.after_cons, unquoted, hnext, hzone, htext, if_pos ⟨rfl, Ne.symm h.1⟩]
    exact ⟨rfl, rfl⟩

theorem unquoted_legalText {cs : List Char} (h : LegalText cs) : unquoted .quoted cs = [] := by
  induction h with
  | nil => rfl
  | @plain c cs hc _ ih =>
    rw [unquoted, Zone.next_quoted hc, ih]
    rfl
  | escape _ _ ih => exact ih

/-! ## Brackets -/

/-- How many brackets are open behind the characters if `n` are open before them. There is none if a
bracket is closed that is not open. -/
def nest? (opening closing : Char) : Nat → List Char → Option Nat
  | n, [] => some n
  | n, c :: cs =>
    if c = opening then nest? opening closing (n + 1) cs
    else if c = closing then if n = 0 then none else nest? opening closing (n - 1) cs
    else nest? opening closing n cs

section
variable {o c : Char} {n k : Nat} {cs : List Char}

theorem nest?_append (n : Nat) (cs ds : List Char) :
    nest? o c n (cs ++ ds) = (nest? o c n cs).bind (nest? o c · ds) := by
  induction cs generalizing n with
  | nil => rfl
  | cons d cs ih =>
    rw [List.cons_append, nest?, nest?]
    split_ifs with hopen hclose hzero
    · exact ih (n + 1)
    · rfl
    · exact ih (n - 1)
    · exact ih n

/-- Brackets around all of the text change nothing within it. -/
theorem nest?_add (h : nest? o c n cs = some k) (m : Nat) : nest? o c (n + m) cs = some (k + m) := by
  induction cs generalizing n with
  | nil =>
    cases h
    rfl
  | cons d cs ih =>
    rw [nest?] at h ⊢
    split_ifs at h ⊢ with hopen hclose hzero hsum hsum
    · rw [Nat.add_right_comm]
      exact ih h
    · omega
    · rw [Nat.sub_add_comm (by omega)]
      exact ih h
    · exact ih h

theorem nest?_of_no_bracket (hopen : o ∉ cs) (hclose : c ∉ cs) : nest? o c n cs = some n := by
  induction cs with
  | nil => rfl
  | cons d cs ih =>
    rw [List.mem_cons, not_or] at hopen hclose
    rw [nest?, if_neg (Ne.symm hopen.1), if_neg (Ne.symm hclose.1), ih hopen.2 hclose.2]

/-- Every bracket counts. -/
theorem nest?_count (hne : o ≠ c) (h : nest? o c n cs = some k) :
    k + cs.count c = n + cs.count o := by
  induction cs generalizing n with
  | nil =>
    cases h
    rfl
  | cons d cs ih =>
    rw [nest?] at h
    split_ifs at h with hopen hclose hzero
    · subst hopen
      have ih := ih h
      rw [List.count_cons_self, List.count_cons_of_ne hne]
      omega
    · subst hclose
      have ih := ih h
      rw [List.count_cons_self, List.count_cons_of_ne hopen]
      omega
    · rw [List.count_cons_of_ne hopen, List.count_cons_of_ne hclose]
      exact ih h

end

/-- Strings are closed, and the parentheses outside of them are balanced. -/
structure Balanced (cs : List Char) : Prop where
  closed : Zone.code.after cs = .code
  nested : nest? '(' ')' 0 (unquoted .code cs) = some 0

namespace Balanced

variable {cs ds : List Char}

theorem unquoted_append (h : Balanced cs) (ds : List Char) :
    unquoted .code (cs ++ ds) = unquoted .code cs ++ unquoted .code ds := by
  rw [Target.unquoted_append, h.closed]

theorem nest?_append (h : Balanced cs) (ds : List Char) :
    nest? '(' ')' 0 (unquoted .code (cs ++ ds)) = nest? '(' ')' 0 (unquoted .code ds) := by
  rw [h.unquoted_append, Target.nest?_append, h.nested, Option.bind_some]

theorem append_iff (h : Balanced cs) : Balanced (cs ++ ds) ↔ Balanced ds := by
  constructor
  · rintro ⟨hclosed, hnested⟩
    rw [Zone.after_append, h.closed] at hclosed
    exact ⟨hclosed, h.nest?_append ds ▸ hnested⟩
  · rintro ⟨hclosed, hnested⟩
    refine ⟨?_, (h.nest?_append ds).trans hnested⟩
    rw [Zone.after_append, h.closed, hclosed]

end Balanced

/-! ## Pieces of lines -/

/-- A text that can be put in a line: it is balanced, with neither braces outside of its strings nor
line ends. -/
structure Neat (cs : List Char) : Prop extends Balanced cs where
  noOpening : '\x7b' ∉ unquoted .code cs
  noClosing : '\x7d' ∉ unquoted .code cs
  inline : '\n' ∉ cs

/-- A character that neither is a bracket nor ends a line nor starts a string. -/
def isInert (c : Char) : Bool := !(['"', '(', ')', '\x7b', '\x7d', '\n'].contains c)

theorem isInert_of_isNameChar {c : Char} (h : isNameChar c = true) : isInert c = true := by
  rw [isInert, Bool.not_eq_true', Bool.eq_false_iff]
  intro hmem
  simp only [List.contains_cons, List.contains_nil, Bool.or_eq_true, beq_iff_eq, Bool.or_false] at hmem
  rcases hmem with rfl | rfl | rfl | rfl | rfl | rfl <;> cases h

namespace Neat

variable {cs ds : List Char}

theorem of_inert (h : cs.all isInert = true) : Neat cs := by
  have hne {c : Char} (hc : isInert c = false) : c ∉ cs := by
    intro hmem
    rw [List.all_eq_true.1 h c hmem] at hc
    cases hc
  obtain ⟨hclosed, htext⟩ := unquoted_of_no_quote (hne (c := '"') (by decide))
  refine ⟨⟨hclosed, ?_⟩, ?_, ?_, hne (by decide)⟩
  · rw [htext]
    exact nest?_of_no_bracket (hne (by decide)) (hne (by decide))
  · rw [htext]
    exact hne (by decide)
  · rw [htext]
    exact hne (by decide)

theorem nil : Neat [] := of_inert rfl

theorem append (h : Neat cs) (h' : Neat ds) : Neat (cs ++ ds) where
  toBalanced := h.append_iff.2 h'.toBalanced
  noOpening hmem := by
    rw [h.unquoted_append, List.mem_append] at hmem
    exact hmem.elim h.noOpening h'.noOpening
  noClosing hmem := by
    rw [h.unquoted_append, List.mem_append] at hmem
    exact hmem.elim h.noClosing h'.noClosing
  inline hmem := (List.mem_append.1 hmem).elim h.inline h'.inline

theorem unquoted_parens (h : Neat cs) :
    unquoted .code ('(' :: (cs ++ [')'])) = '(' :: (unquoted .code cs ++ [')']) := by
  have hparens : unquoted .code ('(' :: (cs ++ [')'])) = '(' :: unquoted .code (cs ++ [')']) := rfl
  rw [hparens, h.unquoted_append]
  rfl

/-- A text in parentheses. -/
theorem parens (h : Neat cs) : Neat ('(' :: (cs ++ [')'])) where
  closed := by
    have hzone : Zone.code.after ('(' :: (cs ++ [')'])) = Zone.code.after (cs ++ [')']) := rfl
    rw [hzone, Zone.after_append, h.closed]
    rfl
  nested := by
    rw [h.unquoted_parens, nest?, if_pos rfl, Target.nest?_append, nest?_add h.nested 1]
    rfl
  noOpening := by simpa [h.unquoted_parens] using h.noOpening
  noClosing := by simpa [h.unquoted_parens] using h.noClosing
  inline := by simpa using h.inline

/-- A string literal with its suffix. -/
theorem string (h : LegalText cs) : Neat ('"' :: (cs ++ ['"', 's'])) := by
  have htext : unquoted .code ('"' :: (cs ++ ['"', 's'])) = ['s'] := by
    have hopen : unquoted .code ('"' :: (cs ++ ['"', 's'])) = unquoted .quoted (cs ++ ['"', 's']) := rfl
    rw [hopen, Target.unquoted_append, unquoted_legalText h, Zone.after_legalText h]
    rfl
  refine ⟨⟨?_, ?_⟩, ?_, ?_, ?_⟩
  · have hopen : Zone.code.after ('"' :: (cs ++ ['"', 's'])) = Zone.quoted.after (cs ++ ['"', 's']) := rfl
    rw [hopen, Zone.after_append, Zone.after_legalText h]
    rfl
  · rw [htext]
    rfl
  · rw [htext]
    decide
  · rw [htext]
    decide
  · simp only [List.mem_cons, List.mem_append, List.not_mem_nil, or_false, not_or]
    refine ⟨by decide, ?_, by decide, by decide⟩
    intro hmem
    clear htext
    induction h with
    | nil => cases hmem
    | @plain c cs hc _ ih =>
      rcases List.mem_cons.1 hmem with rfl | hmem
      · exact hc (by decide)
      · exact ih hmem
    | @escape c cs hc _ ih =>
      simp only [List.mem_cons] at hmem
      rcases hmem with hmem | rfl | hmem
      · cases hmem
      · exact absurd hc (by decide)
      · exact ih hmem

theorem flatMap {l : List α} {f : α → List Char} (h : ∀ a ∈ l, Neat (f a)) : Neat (l.flatMap f) := by
  induction l with
  | nil => exact nil
  | cons a l ih =>
    have hrest := ih fun b hb => h b (List.mem_cons_of_mem a hb)
    exact (h a List.mem_cons_self).append hrest

theorem intercalate {texts : List String} (h : ∀ t ∈ texts, Neat t.toList) :
    Neat (", ".intercalate texts).toList := by
  rw [String.toList_intercalate]
  cases texts with
  | nil => exact nil
  | cons t texts =>
    rw [List.forall_mem_cons] at h
    rw [List.map_cons, intercalate_cons, List.flatMap_map]
    have hcomma : Neat ", ".toList := of_inert (by decide)
    exact h.1.append (.flatMap fun u hu => hcomma.append (h.2 u hu))

theorem text_append {s t : String} (h : Neat s.toList) (h' : Neat t.toList) :
    Neat (s ++ t).toList := by
  rw [String.toList_append]
  exact h.append h'

end Neat

end Primer.Target
