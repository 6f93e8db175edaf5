import Primer.Proofs.Grammar.Declaration
import Primer.Proofs.Layout
import Primer.Proofs.Target.Grouping
import Primer.Proofs.Typing.Scope

/-!
The margins of the C++ text. Each line is indented once for each brace that is open before it, one
less if it starts with the brace that closes a block. The scripts of instructions and declarations are
followed by the lines that they write (`Sets`), which are the same for every width of the margin.
-/

namespace Primer

namespace Target

/-! ## Lines -/

/-- A line without its margin, and how deep it is indented. -/
structure Line where
  depth : Nat
  text : List Char

/-- The line with its margin. -/
def Line.chars (w : Nat) (l : Line) : List Char := margin w l.depth ++ l.text

/-- The text of lines, each with its end. -/
def written (w : Nat) (lines : List Line) : List Char := lines.flatMap fun l => l.chars w ++ ['\n']

theorem written_append (w : Nat) (lines lines' : List Line) :
    written w (lines ++ lines') = written w lines ++ written w lines' := List.flatMap_append

/-- Strings are closed, and the braces outside of them lead from `k` open ones to `k'`. -/
structure Braces (k : Nat) (cs : List Char) (k' : Nat) : Prop where
  closed : Zone.code.after cs = .code
  nested : nest? '\x7b' '\x7d' k (unquoted .code cs) = some k'

theorem Braces.append {k k' k'' : Nat} {cs ds : List Char} (h : Braces k cs k')
    (h' : Braces k' ds k'') : Braces k (cs ++ ds) k'' where
  closed := by rw [Zone.after_append, h.closed, h'.closed]
  nested := by
    rw [unquoted_append, h.closed, nest?_append, h.nested]
    exact h'.nested

theorem Neat.braces {cs : List Char} (h : Neat cs) (k : Nat) : Braces k cs k :=
  ⟨h.closed, nest?_of_no_bracket h.noOpening h.noClosing⟩

theorem Braces.opening (k : Nat) : Braces k ['\x7b'] (k + 1) := ⟨rfl, rfl⟩

theorem Braces.closing (k : Nat) : Braces (k + 1) ['\x7d'] k := ⟨rfl, rfl⟩

theorem Braces.newline (k : Nat) : Braces k ['\n'] k := ⟨rfl, rfl⟩

/-- A line that fits where `k` braces are open and leaves `k'` open. -/
structure Line.Fits (k : Nat) (l : Line) (k' : Nat) : Prop where
  braces : Braces k l.text k'
  inline : '\n' ∉ l.text
  start : l = ⟨0, []⟩ ∨
    ∃ c cs, l.text = c :: cs ∧ c ≠ ' ' ∧ l.depth + (if c = '\x7d' then 1 else 0) = k

/-- Lines that fit one below the other. -/
inductive Braced : Nat → List Line → Nat → Prop where
  | nil : Braced k [] k
  | cons : Line.Fits k l k' → Braced k' lines k'' → Braced k (l :: lines) k''

namespace Braced

variable {k k' k'' : Nat} {lines lines' : List Line}

theorem append (h : Braced k lines k') (h' : Braced k' lines' k'') :
    Braced k (lines ++ lines') k'' := by
  induction h with
  | nil => exact h'
  | cons hl _ ih => exact .cons hl (ih h')

theorem exists_of_append (h : Braced k (lines ++ lines') k'') :
    ∃ k', Braced k lines k' ∧ Braced k' lines' k'' := by
  induction lines generalizing k with
  | nil => exact ⟨k, .nil, h⟩
  | cons l lines ih =>
    cases h with
    | cons hl h =>
      obtain ⟨k', hlines, hlines'⟩ := ih h
      exact ⟨k', .cons hl hlines, hlines'⟩

theorem inline (h : Braced k lines k') : ∀ l ∈ lines, '\n' ∉ l.text := by
  induction h with
  | nil => simp
  | cons hl _ ih =>
    rw [List.forall_mem_cons]
    exact ⟨hl.inline, ih⟩

theorem braces_written (w : Nat) (h : Braced k lines k') : Braces k (written w lines) k' := by
  induction h with
  | nil => exact ⟨rfl, rfl⟩
  | @cons k l k' lines k'' hl _ ih =>
    have hmargin : Neat (margin w l.depth) := by
      refine .of_inert (List.all_eq_true.2 fun c hc => ?_)
      rw [List.eq_of_mem_replicate hc]
      decide
    exact (((hmargin.braces k).append hl.braces).append (.newline k')).append ih

end Braced

/-! ## Scripts -/

/-- At depth `d` the steps write lines that lead from `k` open braces to `k'`. The lines do not depend
on the width of the margin. -/
def Sets (d : Nat) (steps : List Step) (k k' : Nat) : Prop :=
  ∃ lines, (∀ w, Lays w d true steps (written w lines)) ∧ Braced k lines k'

namespace Sets

variable {d k k' k'' : Nat} {steps steps' : List Step} {cs : List Char} {t : String}

theorem nil : Sets d [] k k := ⟨[], fun _ => .nil, .nil⟩

theorem append (h : Sets d steps k k') (h' : Sets d steps' k' k'') :
    Sets d (steps ++ steps') k k'' := by
  obtain ⟨lines, hlays, hlines⟩ := h
  obtain ⟨lines', hlays', hlines'⟩ := h'
  refine ⟨lines ++ lines', fun w => ?_, hlines.append hlines'⟩
  rw [written_append]
  exact (hlays w).append (hlays' w)

theorem newline : Sets d [.newline] k k := by
  have hblank : Line.Fits k ⟨0, []⟩ k := ⟨⟨rfl, rfl⟩, List.not_mem_nil, .inl rfl⟩
  refine ⟨[⟨0, []⟩], fun w => ?_, .cons hblank .nil⟩
  have htext : written w [⟨0, []⟩] = ['\n'] := by simp [written, Line.chars]
  rw [htext]
  exact .newline

/-- Steps that write one line. -/
theorem of_lays (h : ∀ w, Lays w d true steps (margin w d ++ (cs ++ ['\n'])))
    (hl : Line.Fits k ⟨d, cs⟩ k') : Sets d steps k k' := by
  refine ⟨[⟨d, cs⟩], fun w => ?_, .cons hl .nil⟩
  have htext : written w [⟨d, cs⟩] = margin w d ++ (cs ++ ['\n']) := by simp [written, Line.chars]
  rw [htext]
  exact h w

theorem line (hl : Line.Fits k ⟨d, t.toList⟩ k') (ht : t ≠ "") : Sets d (Step.line t) k k' :=
  .of_lays (fun _ => .line ht) hl

theorem indented (h : Sets (d + 1) steps k k') : Sets d [.indented steps] k k' := by
  obtain ⟨lines, hlays, hlines⟩ := h
  exact ⟨lines, fun w => .indented (hlays w), hlines⟩

theorem flatMap {l : List α} {f : α → List Step} (h : ∀ a ∈ l, Sets d (f a) k k) :
    Sets d (l.flatMap f) k k := by
  induction l with
  | nil => exact nil
  | cons a l ih =>
    have hrest := ih fun b hb => h b (List.mem_cons_of_mem a hb)
    exact (h a List.mem_cons_self).append hrest

end Sets

/-- Whether a line can start with the character and close no block. -/
def isLineStart (c : Char) : Bool := c != ' ' && c != '\x7d'

/-- The text can start a line that closes no block. -/
def Starts (cs : List Char) : Prop := cs.head?.any isLineStart = true

instance (cs : List Char) : Decidable (Starts cs) := inferInstanceAs (Decidable (_ = true))

theorem Starts.append {cs : List Char} (h : Starts cs) (ds : List Char) : Starts (cs ++ ds) := by
  cases cs with
  | nil => cases h
  | cons c cs => exact h

theorem Starts.text_append {s : String} (h : Starts s.toList) (t : String) :
    Starts (s ++ t).toList := by
  rw [String.toList_append]
  exact h.append t.toList

theorem Starts.fits {k k' : Nat} {cs : List Char} (h : Starts cs) (hbraces : Braces k cs k')
    (hinline : '\n' ∉ cs) : Line.Fits k ⟨k, cs⟩ k' := by
  refine ⟨hbraces, hinline, .inr ?_⟩
  cases cs with
  | nil => cases h
  | cons c cs =>
    have hc : c ≠ ' ' ∧ c ≠ '\x7d' := by simpa [Starts, isLineStart] using h
    exact ⟨c, cs, rfl, hc.1, by simp [hc.2]⟩

namespace Sets

variable {d k : Nat} {cs : List Char} {t : String}

theorem ne_empty_of_cons {c : Char} (ht : t.toList = c :: cs) : t ≠ "" := by
  rintro rfl
  cases ht

/-- A line without braces. -/
theorem plain (h : Neat t.toList) (hs : Starts t.toList) : Sets d (Step.line t) d d := by
  refine .line (hs.fits (h.braces d) h.inline) ?_
  rintro rfl
  cases hs

/-- A line that opens a block. -/
theorem opening (cs : List Char) (ht : t.toList = cs ++ ['\x7b']) (h : Neat cs) (hs : Starts cs) :
    Sets d (Step.line t) d (d + 1) := by
  have hline : Line.Fits d ⟨d, t.toList⟩ (d + 1) := by
    rw [ht]
    refine (hs.append ['\x7b']).fits ((h.braces d).append (.opening d)) ?_
    simpa using h.inline
  refine .line hline ?_
  rintro rfl
  cases List.append_ne_nil_of_right_ne_nil cs (List.cons_ne_nil _ _) ht.symm

/-- A line that closes a block. -/
theorem closing (cs : List Char) (ht : t.toList = '\x7d' :: cs) (h : Neat cs) :
    Sets d (Step.line t) (d + 1) d := by
  refine .line ⟨?_, ?_, .inr ⟨'\x7d', cs, ht, by decide, rfl⟩⟩ (ne_empty_of_cons ht)
  · rw [ht]
    exact (Braces.closing d).append (h.braces d)
  · simpa [ht] using h.inline

theorem close : Sets d (Step.line "\x7d") (d + 1) d := .closing [] rfl .nil

/-- A line that closes a block and opens the next one. -/
theorem turning (cs : List Char) (ht : t.toList = '\x7d' :: (cs ++ ['\x7b'])) (h : Neat cs) :
    Sets d (Step.line t) (d + 1) (d + 1) := by
  refine .line ⟨?_, ?_, .inr ⟨'\x7d', _, ht, by decide, rfl⟩⟩ (ne_empty_of_cons ht)
  · rw [ht]
    exact (Braces.closing d).append ((h.braces d).append (.opening d))
  · simpa [ht] using h.inline

end Sets

/-! ## The lines of a program -/

theorem isLineStart_of_isNameChar {c : Char} (h : isNameChar c = true) : isLineStart c = true := by
  rw [isLineStart, Bool.and_eq_true, bne_iff_ne, bne_iff_ne]
  constructor
  · rintro rfl
    cases h
  · rintro rfl
    cases h

theorem starts_name {s : String} (h : LexicalName s) : Starts (name s).toList := by
  have hname : Starts s.toList := by
    obtain ⟨c, hc, hstart⟩ := h.start
    rw [Starts, Option.mem_def.1 hc]
    exact isLineStart_of_isNameChar (isNameChar_of_isNameStart hstart)
  rw [name]
  split
  · exact hname.text_append "_"
  · exact hname

theorem starts_literal (v : Literal) : Starts (literal v).toList := by
  have hsigned {cs : List Char} (h : ∃ c tail, cs = c :: tail ∧ (c.isDigit = true ∨ c = '-')) :
      Starts cs := by
    obtain ⟨c, tail, rfl, hdigit | rfl⟩ := h
    · have hname : isNameChar c = true := by simp [isNameChar, Char.isAlphanum, hdigit]
      exact isLineStart_of_isNameChar hname
    · rfl
  cases v with
  | string text =>
    have hquote : Starts "\"".toList := by decide
    exact (hquote.text_append text).text_append "\"s"
  | real x =>
    cases hfin : x.isFinite with
    | true => exact hsigned (exists_head_real hfin)
    | false =>
      rw [literal, Binary64.literalText_of_infinite hfin]
      cases x.negative <;> decide
  | integer z =>
    rw [literal]
    split
    · have hopen : Starts "(".toList := by decide
      exact (hopen.text_append _).text_append _
    · exact (hsigned (exists_head_int z)).text_append "LL"
  | natural n => exact (hsigned (exists_head_int n)).text_append "ULL"
  | boolean b => cases b <;> decide

variable {cx : Scope}

theorem starts_path : ∀ p : Path, p.Lexical → Starts (path cx p).toList
  | .call f args, h => by
    rw [path]
    exact (((starts_name h.1).text_append _).text_append _).text_append _
  | .var x, h => by
    rw [path]
    exact starts_name h
  | .index base i, h => by
    rw [path]
    exact (((starts_path base h.1).text_append _).text_append _).text_append _
  | .member base x, h => by
    rw [path]
    exact ((starts_path base h.1).text_append _).text_append _
  | .method base m args, _ => by
    have hstem : Starts helperStem.toList := by decide
    rw [path]
    exact (((hstem.text_append _).text_append _).text_append _).text_append _

theorem starts_converted {e : Expr} {text : String} (type? common : Option Ty)
    (h : Starts text.toList) : Starts (converted e text type? common).toList := by
  rw [converted]
  split
  · have hcast : Starts "static_cast<".toList := by decide
    exact (((hcast.text_append _).text_append _).text_append _).text_append _
  · rw [Expr.parenthesize]
    split
    · exact h
    · have hopen : Starts "(".toList := by decide
      exact (hopen.text_append _).text_append _

theorem starts_expr : ∀ e : Expr, e.Lexical → Starts (expr cx e).toList
  | .path p, h => by
    rw [expr]
    exact starts_path p h
  | .literal v, _ => by
    rw [expr]
    exact starts_literal v
  | .binary i o left right, h => by
    obtain ⟨leftType?, rightType?, common, htext⟩ := expr_binary_converted i o left right
    rw [htext]
    have hleft := starts_converted (e := left) leftType? common (starts_expr left h.1)
    exact (((hleft.text_append _).text_append _).text_append _).text_append _
  | .not i e, _ => by
    have hsign : Starts "!".toList := by decide
    rw [expr]
    exact hsign.text_append _

/-- The types of a legal program. -/
theorem neat_type {known : List String} {t : Ty} (h : t.Legal known) :
    Neat (type t).toList ∧ Starts (type t).toList := by
  induction t with
  | vector element ih =>
    have hopen : Neat "std::vector<".toList := .of_inert (by decide)
    have hstart : Starts "std::vector<".toList := by decide
    rw [type]
    exact ⟨(hopen.text_append (ih h).1).text_append (.of_inert (by decide)),
      (hstart.text_append _).text_append _⟩
  | named s => exact ⟨(sealed_name h.1.lexical).toNeat, starts_name h.1.lexical⟩
  | _ => exact ⟨.of_inert (by decide), by decide⟩

/-! ### Instructions -/

section
variable {d : Nat}

theorem neat_of_legal {e : Expr} (h : e.Legal) : Neat (expr cx e).toList :=
  (neat_expr e (e.lexical_of_legal h)).1

theorem neat_path_of_legal {p : Path} (h : p.Legal) : Neat (path cx p).toList :=
  (sealed_path p (p.lexical_of_legal h)).toNeat

/-- The head of a block, with what it tests in parentheses. -/
theorem Sets.header {test : String} (head : String) (word : List Char) (hhead : head.toList = word ++ ['('])
    (hword : Neat word) (hs : Starts word) (h : Neat test.toList) :
    Sets d (Step.line (head ++ test ++ ") \x7b")) d (d + 1) := by
  have hblank : Neat [' '] := .of_inert (by decide)
  refine .opening (word ++ '(' :: (test.toList ++ [')']) ++ [' ']) ?_
    ((hword.append h.parens).append hblank) ((hs.append _).append [' '])
  rw [String.toList_append, String.toList_append, hhead]
  simp only [List.append_assoc, List.cons_append, List.nil_append]
  rfl

theorem sets_if {e : Expr} (h : e.Legal) :
    Sets d (Step.line ("if (" ++ expr cx e ++ ") \x7b")) d (d + 1) :=
  .header "if (" "if ".toList rfl (.of_inert (by decide)) (by decide) (neat_of_legal h)

theorem sets_until {e : Expr} (h : e.Legal) :
    Sets d (Step.line ("\x7d while (!(" ++ expr cx e ++ "));")) (d + 1) d := by
  have hnot : Neat ['!'] := .of_inert (by decide)
  have hword : Neat " while ".toList := .of_inert (by decide)
  have hend : Neat [';'] := .of_inert (by decide)
  have hcondition : Neat (expr cx e).toList := neat_of_legal h
  have htest := (hnot.append hcondition.parens).parens
  refine .closing _ ?_ ((hword.append htest).append hend)
  rw [String.toList_append, String.toList_append]
  simp only [List.append_assoc, List.cons_append, List.nil_append]
  rfl

/-- The head of a counted loop, whose test compares the counter with its bound in a common type. -/
theorem sets_for {x : Ident} {first last : Expr} (hx : LegalName x.name) (hfirst : first.Legal)
    (hlast : last.Legal) (type? lastType? common : Option Ty) :
    Sets d (Step.line ("for (" ++ name x.name ++ " = " ++ expr cx first ++ "; " ++
      converted (.path (.var x)) (expr cx (.path (.var x))) type? common ++ " <= " ++
        converted last (expr cx last) lastType? common ++ "; ++" ++ name x.name ++ ") \x7b")) d (d + 1) := by
  have hcounter : (Expr.path (.var x)).Lexical := hx.lexical
  have hname := (sealed_name hx.lexical).toNeat
  have hset : Neat (name x.name ++ " = " ++ expr cx first ++ "; ").toList :=
    ((hname.text_append (.of_inert (by decide))).text_append (neat_of_legal hfirst)).text_append
      (.of_inert (by decide))
  have htest : Neat (converted (.path (.var x)) (expr cx (.path (.var x))) type? common ++ " <= " ++
      converted last (expr cx last) lastType? common).toList :=
    ((sealed_converted_expr hcounter _ _).toNeat.text_append (.of_inert (by decide))).text_append
      (sealed_converted_expr (last.lexical_of_legal hlast) _ _).toNeat
  have hstep : Neat ("; ++" ++ name x.name).toList := Neat.text_append (.of_inert (by decide)) hname
  have hhead := Sets.header (d := d) "for (" "for ".toList rfl (.of_inert (by decide)) (by decide)
    ((hset.text_append htest).text_append hstep)
  simpa only [String.append_assoc] using hhead

theorem lays_writes {w : Nat} {texts : List String} {steps : List Step} {text : List Char}
    (ht : ∀ t ∈ texts, t ≠ "") (h : Lays w d false steps text) :
    Lays w d false (texts.map .write ++ steps) (texts.flatMap String.toList ++ text) := by
  induction texts with
  | nil => exact h
  | cons t texts ih =>
    rw [List.forall_mem_cons] at ht
    have hmore : Lays w d false (.write t :: (texts.map .write ++ steps))
        ([] ++ (t.toList ++ (texts.flatMap String.toList ++ text))) := .write ht.1 (ih ht.2)
    rwa [List.nil_append, ← List.append_assoc] at hmore

theorem sets_print {i : Position} {es : List Expr} (h : ∀ e ∈ es, e.Legal) :
    Sets d (instruction cx (.print i es)) d d := by
  let texts := es.map fun e => " << " ++ operand cx e
  have hsteps : instruction cx (.print i es) =
      .write "std::cout" :: (texts.map .write ++ Step.line ";") := by
    rw [instruction, List.map_map]
    rfl
  have htexts : ∀ t ∈ texts, t ≠ "" ∧ Neat t.toList := by
    intro t ht
    obtain ⟨e, he, rfl⟩ := List.mem_map.1 ht
    have hsign : Neat " << ".toList := .of_inert (by decide)
    exact ⟨by simp, hsign.text_append (sealed_operand (e.lexical_of_legal (h e he))).toNeat⟩
  have hneat : Neat ("std::cout".toList ++ (texts.flatMap String.toList ++ [';'])) := by
    refine .append (.of_inert (by decide)) (.append (.flatMap fun t ht => (htexts t ht).2) ?_)
    exact .of_inert (by decide)
  have hstart : Starts "std::cout".toList := by decide
  rw [hsteps]
  refine .of_lays (fun w => ?_) ((hstart.append _).fits (hneat.braces d) hneat.inline)
  have hline : Lays w d false (Step.line ";") ([] ++ [';', '\n']) := .line (by decide)
  have hprint : Lays w d true (.write "std::cout" :: (texts.map .write ++ Step.line ";"))
      (lead w d true ++ ("std::cout".toList ++ (texts.flatMap String.toList ++ [';', '\n']))) :=
    .write (by decide) (lays_writes (fun t ht => (htexts t ht).1) hline)
  simpa only [lead, if_true, List.append_assoc, List.cons_append, List.nil_append] using hprint

end

mutual
theorem sets_instruction : ∀ (i : Instruction), i.Legal → ∀ d, Sets d (instruction cx i) d d
  | .print i es, h, d => sets_print h.2
  | .read target, h, d => by
    have hstart : Starts "std::cin >> ".toList := by decide
    have hopen : Neat "std::cin >> ".toList := .of_inert (by decide)
    rw [instruction]
    exact .plain ((hopen.text_append (neat_path_of_legal h)).text_append (.of_inert (by decide)))
      ((hstart.text_append _).text_append _)
  | .result i value, h, d => by
    have hstart : Starts "return ".toList := by decide
    have hopen : Neat "return ".toList := .of_inert (by decide)
    rw [instruction]
    exact .plain ((hopen.text_append (neat_of_legal h)).text_append (.of_inert (by decide)))
      ((hstart.text_append _).text_append _)
  | .evaluate e, h, d => by
    rw [instruction]
    exact .plain ((neat_of_legal h).text_append (.of_inert (by decide)))
      ((starts_expr e (e.lexical_of_legal h)).text_append _)
  | .assign i target value, h, d => by
    have hsign : Neat " = ".toList := .of_inert (by decide)
    have htarget : Neat (path cx target ++ " = ").toList := (neat_path_of_legal h.1).text_append hsign
    rw [instruction]
    exact .plain ((htarget.text_append (neat_of_legal h.2)).text_append (.of_inert (by decide)))
      ((((starts_path target (target.lexical_of_legal h.1)).text_append _).text_append _).text_append _)
  | .branch i condition body otherwise, h, d => by
    rw [instruction]
    exact (((sets_if h.1).append (.indented (sets_block body h.2.1 (d + 1)))).append
      (sets_alternatives otherwise h.2.2 d)).append .close
  | .whileLoop i condition body, h, d => by
    have hhead : Sets d (Step.line ("while (" ++ expr cx condition ++ ") \x7b")) d (d + 1) :=
      .header "while (" "while ".toList rfl (.of_inert (by decide)) (by decide) (neat_of_legal h.1)
    rw [instruction]
    exact (hhead.append (.indented (sets_block body h.2 (d + 1)))).append .close
  | .untilLoop i body condition, h, d => by
    have hhead : Sets d (Step.line "do \x7b") d (d + 1) :=
      .opening "do ".toList rfl (.of_inert (by decide)) (by decide)
    rw [instruction]
    exact (hhead.append (.indented (sets_block body h.1 (d + 1)))).append (sets_until h.2)
  | .forLoop i x first last body, h, d => by
    obtain ⟨type?, lastType?, common, hsteps⟩ := instruction_forLoop_converted i x first last body
    rw [hsteps]
    exact ((sets_for h.1 h.2.1 h.2.2.1 type? lastType? common).append
      (.indented (sets_block body h.2.2.2 (d + 1)))).append .close
  | .guarded i condition j, h, d => by
    rw [instruction]
    exact ((sets_if h.1).append (.indented (sets_instruction j h.2 (d + 1)))).append .close

theorem sets_alternatives : ∀ (a : Alternatives), a.Legal →
    ∀ d, Sets d (alternatives cx a) (d + 1) (d + 1)
  | .none, _, d => by
    rw [alternatives]
    exact .nil
  | .otherwise body, h, d => by
    have hhead : Sets d (Step.line "\x7d else \x7b") (d + 1) (d + 1) :=
      .turning " else ".toList rfl (.of_inert (by decide))
    rw [alternatives]
    exact hhead.append (.indented (sets_block body h (d + 1)))
  | .elsif i condition body next, h, d => by
    have hword : Neat " else if ".toList := .of_inert (by decide)
    have hblank : Neat [' '] := .of_inert (by decide)
    have hhead : Sets d (Step.line ("\x7d else if (" ++ expr cx condition ++ ") \x7b")) (d + 1)
        (d + 1) := by
      have hcondition : Neat (expr cx condition).toList := neat_of_legal h.1
      refine .turning _ ?_ ((hword.append hcondition.parens).append hblank)
      rw [String.toList_append, String.toList_append]
      simp only [List.append_assoc, List.cons_append, List.nil_append]
      rfl
    rw [alternatives]
    exact (hhead.append (.indented (sets_block body h.2.1 (d + 1)))).append
      (sets_alternatives next h.2.2 d)

theorem sets_block : ∀ (is : List Instruction), Instruction.LegalAll is →
    ∀ d, Sets d (block cx is) d d
  | [], _, d => by
    rw [block]
    exact .nil
  | i :: is, h, d => by
    rw [block]
    exact (sets_instruction i h.1 d).append (sets_block is h.2 d)
end

/-! ### Declarations -/

section
variable {known : List String}

theorem neat_declaration {s : Symbol} (h : s.Legal known) :
    Neat (declaration s).toList ∧ Starts (declaration s).toList := by
  obtain ⟨hneat, hstart⟩ := neat_type h.2
  rw [declaration]
  exact ⟨(hneat.text_append (.of_inert (by decide))).text_append (sealed_name h.1.lexical).toNeat,
    (hstart.text_append _).text_append _⟩

/-- A variable has the braces of its initial value on one line. -/
theorem sets_variableLine {s : Symbol} (h : s.Legal known) (d : Nat) :
    Sets d (variableLine s) d d := by
  obtain ⟨hneat, hstart⟩ := neat_declaration h
  have hend : Neat [';'] := .of_inert (by decide)
  have htext : (declaration s ++ "\x7b\x7d;").toList =
      (declaration s).toList ++ (['\x7b'] ++ (['\x7d'] ++ [';'])) := String.toList_append
  have hbraces : Braces d (declaration s ++ "\x7b\x7d;").toList d := by
    rw [htext]
    exact (hneat.braces d).append ((Braces.opening d).append ((Braces.closing d).append (hend.braces d)))
  refine .line ((hstart.text_append _).fits hbraces ?_) (by simp)
  rw [htext]
  simpa using hneat.inline

theorem neat_parameter {p : Parameter} (h : p.symbol.Legal known) : Neat (parameter p).toList := by
  have htype := (neat_type h.2).1
  have hname : Neat (name p.name).toList := (sealed_name h.1.lexical).toNeat
  have hconst : Neat "const ".toList := .of_inert (by decide)
  rw [parameter]
  split
  · exact (htype.text_append (.of_inert (by decide))).text_append hname
  · split
    · exact (htype.text_append (.of_inert (by decide))).text_append hname
    · exact ((hconst.text_append htype).text_append (.of_inert (by decide))).text_append hname

theorem neat_signature {r : Routine} (h : r.Legal known) :
    Neat (signature r).toList ∧ Starts (signature r).toList := by
  have hresult : Neat ((r.result.map type).getD "void").toList ∧
      Starts ((r.result.map type).getD "void").toList := by
    cases hr : r.result with
    | none => exact ⟨.of_inert (by decide), by decide⟩
    | some t => exact neat_type (h.result t (by rw [hr]; rfl))
  have hparams : Neat (", ".intercalate (r.params.map parameter)).toList := by
    refine .intercalate fun t ht => ?_
    obtain ⟨p, hp, rfl⟩ := List.mem_map.1 ht
    exact neat_parameter (h.params p hp)
  have hhead : Neat ((r.result.map type).getD "void" ++ " " ++ name r.name).toList :=
    (hresult.1.text_append (.of_inert (by decide))).text_append (sealed_name h.name.lexical).toNeat
  rw [signature]
  exact ⟨neat_call hhead hparams,
    ((((hresult.2.text_append _).text_append _).text_append _).text_append _).text_append _⟩

theorem sets_structureDeclaration {s : Structure} (h : s.Legal known) :
    Sets 0 (structureDeclaration s) 0 0 := by
  have hstart : Starts "struct ".toList := by decide
  have hword : Neat "struct ".toList := .of_inert (by decide)
  have hname : Neat ("struct " ++ name s.name ++ " ").toList :=
    (hword.text_append (sealed_name h.name.lexical).toNeat).text_append (.of_inert (by decide))
  have hhead : Sets 0 (Step.line ("struct " ++ name s.name ++ " \x7b")) 0 1 := by
    refine .opening _ ?_ hname ((hstart.text_append _).text_append _)
    simp only [String.toList_append, List.append_assoc]
    rfl
  have hmembers : Sets 0 [.indented (s.members.flatMap variableLine)] 1 1 :=
    .indented (.flatMap fun m hm => sets_variableLine (h.members m hm) 1)
  rw [structureDeclaration]
  exact (hhead.append hmembers).append (.closing [';'] rfl (.of_inert (by decide)))

theorem sets_routine {r : Routine} (h : r.Legal known) : Sets 0 (routine cx r) 0 0 := by
  obtain ⟨hneat, hstart⟩ := neat_signature h
  have hhead : Sets 0 (Step.line (signature r ++ " \x7b")) 0 1 := by
    refine .opening ((signature r).toList ++ [' ']) ?_ (hneat.append (.of_inert (by decide)))
      (hstart.append _)
    rw [String.toList_append, List.append_assoc]
    rfl
  have hlocals : Sets 1 (r.locals.flatMap variableLine) 1 1 :=
    .flatMap fun s hs => sets_variableLine (h.locals s hs) 1
  have hbody : Sets 1 (block cx r.body) 1 1 :=
    sets_block r.body (Instruction.legalAll_iff.2 h.body) 1
  rw [routine]
  exact (hhead.append (.indented (hlocals.append hbody))).append .close

end

/-- The characters of a literal are found without decoding it. -/
theorem toList_literal {s : String} {cs : List Char} (h : s = String.ofList cs) : s.toList = cs := by
  rw [h, String.toList_ofList]

theorem toList_literals {s t : String} {cs ds : List Char} (hs : s = String.ofList cs)
    (ht : t = String.ofList ds) : (s ++ t).toList = cs ++ ds := by
  rw [String.toList_append, toList_literal hs, toList_literal ht]

theorem sets_entryPoint {p : Program} (h : LegalName p.name) : Sets 0 (entryPoint p) 0 0 := by
  have hhead : Sets 0 (Step.line ("int " ++ reservedProgramName ++ "(int argc, char** argv) \x7b")) 0 1 :=
    .opening "int main(int argc, char** argv) ".toList (by decide)
      ⟨⟨by decide, by decide⟩, by decide, by decide, by decide⟩ (by decide)
  have hflags : Sets 1 (Step.line "std::cout << std::boolalpha;") 1 1 :=
    .plain (.of_inert (by decide)) (by decide)
  have hargs : Sets 1 (Step.line (type (.vector .string) ++ " args(argv + 1, argv + argc);")) 1 1 :=
    .plain ⟨⟨by decide, by decide⟩, by decide, by decide, by decide⟩ (by decide)
  have hreturn : Sets 1 (Step.line ("return static_cast<int>(" ++ name p.name ++ "(args));")) 1 1 := by
    have hopen : Neat "return static_cast<int>".toList := .of_inert (by decide)
    have hargs : Neat "args".toList := .of_inert (by decide)
    have hcall : Neat (name p.name ++ "(" ++ "args" ++ ")").toList :=
      neat_call (sealed_name h.lexical).toNeat hargs
    have htext : ("return static_cast<int>(" ++ name p.name ++ "(args));").toList =
        "return static_cast<int>".toList ++
          '(' :: ((name p.name ++ "(" ++ "args" ++ ")").toList ++ [')']) ++ [';'] := by
      rw [String.toList_append, String.toList_append, toList_literal (s := "return static_cast<int>(") rfl,
        toList_literal (s := "return static_cast<int>") rfl, toList_call]
      simp
    have hstart : Starts "return static_cast<int>(".toList := by decide
    refine .plain ?_ ((hstart.text_append _).text_append _)
    rw [htext]
    exact (hopen.append hcall.parens).append (.of_inert (by decide))
  have hbody := Sets.indented ((hflags.append hargs).append hreturn)
  rw [entryPoint]
  exact ((Sets.newline.append hhead).append hbody).append .close

/-- The head of the text is the same for every program. -/
theorem sets_headers : Sets 0 (headers.flatMap fun h => Step.line ("#include <" ++ h ++ ">")) 0 0 := by
  have hchars : ∀ h ∈ headers, h.toList.all isInert = true := by decide
  have hopen : Neat "#include <".toList := .of_inert (by decide)
  have hstart : Starts "#include <".toList := by decide
  refine .flatMap fun h hh => ?_
  exact .plain ((hopen.text_append (.of_inert (hchars h hh))).text_append (.of_inert (by decide)))
    ((hstart.text_append _).text_append _)

/-- A line that closes the braces that it opens, by its characters. -/
theorem Sets.enclosing {t : String} {cs : List Char} (ht : t.toList = cs)
    (h : '"' ∉ cs ∧ Starts cs ∧ nest? '\x7b' '\x7d' 0 cs = some 0 ∧ '\n' ∉ cs) :
    Sets 0 (Step.line t) 0 0 := by
  subst ht
  obtain ⟨hquote, hstart, hnested, hinline⟩ := h
  obtain ⟨hclosed, htext⟩ := unquoted_of_no_quote hquote
  refine .line (hstart.fits ⟨hclosed, by rw [htext, hnested]⟩ hinline) ?_
  rintro rfl
  cases hstart

theorem sets_helpers : Sets 0 (helpers.flatMap Step.line) 0 0 := by
  refine .flatMap ?_
  simp only [helpers, List.forall_mem_cons]
  refine ⟨.enclosing (toList_literal rfl) (by decide), .enclosing (toList_literals rfl rfl) (by decide),
    .enclosing (toList_literals rfl rfl) (by decide), .enclosing (toList_literals rfl rfl) (by decide),
    .enclosing (toList_literals rfl rfl) (by decide), .enclosing (toList_literal rfl) (by decide),
    .enclosing (toList_literals rfl rfl) (by decide), .enclosing (toList_literals rfl rfl) (by decide),
    by simp⟩

theorem sets_program {p : Program} (h : p.Legal) (withHelpers : Bool) :
    Sets 0 (program withHelpers p) 0 0 := by
  have hblank : Sets 0 [.newline] 0 0 := .newline
  have husing : Sets 0 (Step.line "using namespace std::string_literals;") 0 0 :=
    .plain (.of_inert (by decide)) (by decide)
  have hhelpers : Sets 0 (if withHelpers then .newline :: helpers.flatMap Step.line else []) 0 0 := by
    split
    · exact hblank.append sets_helpers
    · exact .nil
  have hstructures : Sets 0 (p.structures.flatMap fun s => .newline :: structureDeclaration s) 0 0 := by
    refine .flatMap fun s hs => ?_
    obtain ⟨known, hlegal⟩ := h.exists_structure hs
    exact hblank.append (sets_structureDeclaration hlegal)
  have hgap : Sets 0 (Canonical.gap p) 0 0 := by
    rw [Canonical.gap]
    split
    · exact .nil
    · exact hblank
  have hconstants : Sets 0 (p.constants.flatMap fun c => Step.line
      ("const " ++ declaration c.symbol ++ " = " ++ expr ⟨p, none⟩ c.value ++ ";")) 0 0 := by
    have hword : Neat "const ".toList := .of_inert (by decide)
    have hstart : Starts "const ".toList := by decide
    refine .flatMap fun c hc => ?_
    have hleft := (hword.text_append (neat_declaration (h.constants c hc).symbol).1).text_append
      (t := " = ") (.of_inert (by decide))
    exact .plain ((hleft.text_append (neat_of_legal (h.constants c hc).value)).text_append
      (.of_inert (by decide))) ((((hstart.text_append _).text_append _).text_append _).text_append _)
  have hglobals : Sets 0 (p.globals.flatMap variableLine) 0 0 :=
    .flatMap fun s hs => sets_variableLine (h.globals s hs) 0
  have hbreak : Sets 0 (if p.routines.isEmpty then [] else [.newline]) 0 0 := by
    split
    · exact .nil
    · exact hblank
  have hsignatures : Sets 0 (p.routines.flatMap fun r => Step.line (signature r ++ ";")) 0 0 := by
    refine .flatMap fun r hr => ?_
    obtain ⟨hneat, hstart⟩ := neat_signature (h.routine hr)
    exact .plain (hneat.text_append (.of_inert (by decide))) (hstart.text_append _)
  have hroutines : Sets 0 (p.routines.flatMap fun r => .newline :: routine ⟨p, some r⟩ r) 0 0 :=
    .flatMap fun r hr => hblank.append (sets_routine (h.routine hr))
  have hopening := ((sets_headers.append hblank).append husing).append hhelpers
  have hdata := (((hopening.append hstructures).append hgap).append hconstants).append hglobals
  exact (((hdata.append hbreak).append hsignatures).append hroutines).append (sets_entryPoint h.name)

/-! ## The whole text -/

/-- The lines of a text, without their ends. -/
def linesOf (text : String) : List (List Char) := text.toList.splitOn '\n'

/-- How many more braces are opened than closed in the lines, outside of string literals. -/
def openBraces (lines : List (List Char)) : Int :=
  let code := unquoted .code (lines.flatMap (· ++ ['\n']))
  code.count '\x7b' - code.count '\x7d'

theorem linesOf_written {w : Nat} {lines : List Line} {text : String} {k k' : Nat}
    (htext : text.toList = written w lines) (h : Braced k lines k') :
    linesOf text = lines.map (Line.chars w) ++ [[]] := by
  have hjoin (ls : List (List Char)) :
      ['\n'].intercalate (ls ++ [[]]) = ls.flatMap (· ++ ['\n']) := by
    induction ls with
    | nil => rfl
    | cons l ls ih =>
      rw [List.cons_append, List.intercalate_cons_of_ne_nil (by simp), ih, List.flatMap_cons]
  have hinline : ∀ l ∈ lines.map (Line.chars w) ++ [[]], '\n' ∉ l := by
    intro l hl
    rcases List.mem_append.1 hl with hline | hlast
    · obtain ⟨l, hmem, rfl⟩ := List.mem_map.1 hline
      intro hend
      rcases List.mem_append.1 hend with hmargin | htext
      · cases List.eq_of_mem_replicate hmargin
      · exact h.inline l hmem htext
    · rw [List.mem_singleton.1 hlast]
      exact List.not_mem_nil
  have hsplit := List.splitOn_intercalate '\n' hinline (by simp)
  rwa [hjoin, List.flatMap_map, ← written, ← htext] at hsplit

/-- The margin can be told from the rest of a line. -/
theorem Line.Fits.dropWhile_chars {k k' : Nat} {l : Line} (h : l.Fits k k') (w : Nat) :
    (l.chars w).dropWhile (· == ' ') = l.text := by
  have hmargin : ∀ c ∈ margin w l.depth, (c == ' ') = true := by
    intro c hc
    rw [List.eq_of_mem_replicate hc]
    rfl
  rw [Line.chars, List.dropWhile_append_of_pos hmargin]
  rcases h.start with rfl | ⟨c, cs, htext, hc, -⟩
  · rfl
  · rw [htext, List.dropWhile_cons_of_neg (by simpa using hc)]

theorem Braced.dropWhile_chars {k k' : Nat} {lines : List Line} (h : Braced k lines k') (w : Nat) :
    (lines.map (Line.chars w)).map (·.dropWhile (· == ' ')) = lines.map (·.text) := by
  induction h with
  | nil => rfl
  | cons hl _ ih => rw [List.map_cons, List.map_cons, List.map_cons, hl.dropWhile_chars, ih]

theorem exists_line {w : Nat} {lines : List Line} {before after : List (List Char)}
    {line : List Char} (h : lines.map (Line.chars w) ++ [[]] = before ++ line :: after)
    (hne : line ≠ []) : ∃ above l below, lines = above ++ l :: below ∧
      before = above.map (Line.chars w) ∧ line = l.chars w := by
  rcases List.append_eq_append_iff.1 h with ⟨more, -, hmore⟩ | ⟨more, hlines, hmore⟩
  · have hmem : line ∈ [[]] := hmore ▸ List.mem_append_right more List.mem_cons_self
    exact absurd (List.mem_singleton.1 hmem) hne
  · cases more with
    | nil => exact absurd (List.head_eq_of_cons_eq hmore) hne
    | cons l more =>
      obtain rfl : line = l := List.head_eq_of_cons_eq hmore
      obtain ⟨above, rest, rfl, rfl, hrest⟩ := List.map_eq_append_iff.1 hlines
      obtain ⟨l, below, rfl, rfl, -⟩ := List.map_eq_cons_iff.1 hrest
      exact ⟨above, l, below, rfl, rfl, rfl⟩

theorem openBraces_chars {w k : Nat} {lines : List Line} (h : Braced 0 lines k) :
    openBraces (lines.map (Line.chars w)) = k := by
  have hwritten : (lines.map (Line.chars w)).flatMap (· ++ ['\n']) = written w lines :=
    List.flatMap_map ..
  have hcount := nest?_count (by decide) (h.braces_written w).nested
  simp only [openBraces, hwritten]
  omega

end Target

/-- A line of the C++ text that is not empty is indented once for each brace that is open before it,
one less if it starts with a closing brace. All braces are closed in the end, and the width of the
margin changes nothing else. -/
theorem Program.targetText_indented {s : String} {p : Program} (h : Program.parse s = .ok p)
    (options : TargetOptions) :
    (∀ before line after, Target.linesOf (p.targetText options) = before ++ line :: after →
      line ≠ [] → ∃ d c body,
        line = List.replicate (options.indentWidth * d) ' ' ++ c :: body ∧ c ≠ ' ' ∧
          (d : Int) = Target.openBraces before - if c = '\x7d' then 1 else 0) ∧
    Target.nest? '\x7b' '\x7d' 0 (Target.unquoted .code (p.targetText options).toList) = some 0 ∧
    ∀ w, (Target.linesOf (p.targetText { options with indentWidth := w })).map
        (·.dropWhile (· == ' ')) =
      (Target.linesOf (p.targetText options)).map (·.dropWhile (· == ' ')) := by
  obtain ⟨lines, hlays, hlines⟩ := Target.sets_program (legal_of_parse h) options.withHelpers
  have htext (w : Nat) : (p.targetText { options with indentWidth := w }).toList =
      Target.written w lines := (hlays w).render_eq
  have hsame : p.targetText options =
      p.targetText { options with indentWidth := options.indentWidth } := rfl
  refine ⟨?_, ?_, ?_⟩
  · intro before line after hsplit hne
    rw [hsame, Target.linesOf_written (htext _) hlines] at hsplit
    obtain ⟨above, l, below, rfl, rfl, rfl⟩ := Target.exists_line hsplit hne
    obtain ⟨k, habove, hbelow⟩ := hlines.exists_of_append
    cases hbelow with
    | cons hl _ =>
      rcases hl.start with rfl | ⟨c, body, hbody, hc, hdepth⟩
      · exact absurd (by simp [Target.Line.chars]) hne
      · refine ⟨l.depth, c, body, ?_, hc, ?_⟩
        · rw [Target.Line.chars, hbody, margin, Nat.mul_comm]
        · rw [Target.openBraces_chars habove]
          split at hdepth
          case isTrue hbrace =>
            rw [if_pos hbrace]
            omega
          case isFalse hbrace =>
            rw [if_neg hbrace]
            omega
  · rw [hsame, htext]
    exact (hlines.braces_written _).nested
  · intro w
    rw [hsame, Target.linesOf_written (htext w) hlines, Target.linesOf_written (htext _) hlines,
      List.map_append, List.map_append, hlines.dropWhile_chars, hlines.dropWhile_chars]

/-- A program with a brace in a string. -/
def braceText : String := "program t\nprocedure q()\non true do print \"\x7d\"\nend"

theorem Program.targetText_indented_brace : ∃ p, Program.parse braceText = .ok p ∧
    p.procedures.map (fun r => r.body.length) = [1] ∧
    (∀ before line after, Target.linesOf (p.targetText ⟨3, false⟩) = before ++ line :: after →
      line ≠ [] → ∃ d c body, line = List.replicate (3 * d) ' ' ++ c :: body ∧ c ≠ ' ' ∧
        (d : Int) = Target.openBraces before - if c = '\x7d' then 1 else 0) ∧
    Target.nest? '\x7b' '\x7d' 0 (Target.unquoted .code (p.targetText ⟨3, false⟩).toList) = some 0 := by
  have hany : (Program.parse braceText).toOption.any (fun p =>
      p.procedures.map (fun r => r.body.length) == [1]) = true := by decide +kernel
  obtain ⟨p, hp, hbody⟩ := exists_ok_of_any hany
  obtain ⟨hlines, hbalanced, -⟩ := targetText_indented hp ⟨3, false⟩
  exact ⟨p, hp, beq_iff_eq.1 hbody, hlines, hbalanced⟩

end Primer
