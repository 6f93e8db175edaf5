import Primer.Grammar.Expr
import Primer.Proofs.Parser.Parallel
import Primer.Proofs.RoundTrip.Literal
import Primer.Proofs.Syntax.Relocation

/-!
Words, names, literals and operators in two texts. Their characters have to stand at the same places
of both, from where `A` relates the places, and after each of them `B` does. A name and a whole number
may halt where they start, so that these places have to correspond as places of errors too.
-/

namespace Primer

open Primer.Parser Primer.Grammar

/-- A character of a word, of a number or of an operator other than division. -/
def isTokenChar (c : Char) : Bool :=
  isNameChar c || ['+', '-', '.', '<', '>', '=', '!', '*', '%'].contains c

theorem isTokenChar_of_isNameChar {c : Char} (h : isNameChar c = true) : isTokenChar c = true := by
  rw [isTokenChar, h, Bool.true_or]

theorem isTokenChar_of_isDigit {c : Char} (h : c.isDigit = true) : isTokenChar c = true :=
  isTokenChar_of_isNameChar (by simp [isNameChar, Char.isAlphanum, h])

theorem isTokenChar_of_sign {c : Char} (h : ['+', '-'].contains c = true) : isTokenChar c = true := by
  rcases List.mem_pair.1 (List.contains_iff_mem.1 h) with rfl | rfl <;> decide

namespace Parser.Parallel

variable {w : Comparison} {n : Nat} {A B Q : Cursor → Cursor → Prop}

/-! ## Strings -/

/-- The items of a string, if their characters stand at the same places of both texts. -/
theorem stringItem (hplain : Steps (fun c => !(['\\', '"', '\r', '\n'].contains c)) A A)
    (hslash : Steps (· == '\\') A B)
    (hescape : Steps (['"', '\\', 'n', 'r', 't', '0'].contains ·) B A) :
    Parallel w n 1 A Grammar.stringItem Grammar.stringItem Eq A := by
  refine .orElse ?_ ?_
  · refine (satisfy hplain).bind_left ?_
    rintro c _ rfl
    exact .pure rfl
  · refine (char hslash).bind_left ?_
    rintro b _ rfl
    refine (satisfy hescape).less.bind ?_
    rintro c _ rfl
    exact .pure rfl

/-- The quotes and the items are taken by themselves, since space within a string is not passed over. -/
theorem string (hopen : Parallel w n 1 A (Parser.char '"') (Parser.char '"') Eq Q)
    (hitem : Parallel w n 1 Q Grammar.stringItem Grammar.stringItem Eq Q)
    (hclose : Parallel w n 1 Q (Parser.char '"') (Parser.char '"') Eq B)
    (hplace : ∀ i j, Q i j → w.Place (behindSpace i) (behindSpace j)) :
    Parallel w n 1 A Grammar.string Grammar.string Eq B := by
  refine hopen.discard.bind_left fun _ _ _ => ?_
  refine .expect ?_ hplace
  refine hitem.many.bind fun items items' hitems => ?_
  refine hclose.less.discard.bind fun _ _ _ => .pure ?_
  rw [List.forall₂_eq_eq_eq] at hitems
  rw [hitems]

/-! ## Words and names -/

section
variable (h : Steps isTokenChar A B) (hBA : ∀ i j, B i j → A i j)
include h hBA

/-- A word ends where no further character of a name follows, which the places behind it have to agree
on. -/
theorem word {s : String} (hs : isWord s = true) :
    Parallel w n 1 A (Grammar.word s) (Grammar.word s) (fun _ _ => True) B := by
  have hchars := isNameChar_of_isWord hs
  have htext : Parallel w n 1 A (Parser.text s) (Parser.text s) (fun _ _ => True) B := by
    refine text h hBA (fun c hc => isTokenChar_of_isNameChar (hchars c hc)) fun hnil => ?_
    subst hnil
    cases hs
  refine htext.bind_left fun _ _ _ => ?_
  exact .notFollowedBy ((satisfy (h.of_imp fun _ => isTokenChar_of_isNameChar)).start hBA)

theorem label : Parallel w n 1 A Grammar.label Grammar.label Eq B := by
  have hname : Steps isNameChar A B := h.of_imp fun _ => isTokenChar_of_isNameChar
  have hothers : Steps isNameChar B B :=
    ⟨fun hij => hname.head (hBA _ _ hij), fun hij => hname.skip (hBA _ _ hij)⟩
  refine (satisfy (hname.of_imp fun _ => isNameChar_of_isNameStart)).bind_left ?_
  rintro c _ rfl
  refine (takeWhile hothers).bind fun cs ds hcs => .pure ?_
  rw [hcs]

/-- A name that is a keyword misses and one that is too long halts; both are decided by the label. -/
theorem ident {f g : Position → Position} (hpoint : ∀ i j, A i j → f i.position = g j.position) :
    Parallel w n 1 (fun i j => A i j ∧ w.Place i j) Grammar.ident Grammar.ident
      (fun x y => x.relocate f = y.relocate g) B := by
  refine Parallel.here.bind fun start start' hstart => ?_
  refine ((label h hBA).start fun _ _ hij => hij.1).bind_left ?_
  rintro name _ rfl
  split
  · exact .missAt
  · split
    · exact .haltAt hstart.2
    · exact .pure (congrArg (Ident.mk · name) (hpoint _ _ hstart.1))

/-! ## Numbers and truth values -/

theorem sign : Parallel w n 0 A Grammar.sign Grammar.sign Eq A := by
  have hsign : Parallel w n 1 A (oneOf ['+', '-']) (oneOf ['+', '-']) Eq B :=
    satisfy (h.of_imp fun _ => isTokenChar_of_sign)
  refine ((hsign.rest hBA).maybe fun _ _ hij => hij).bind fun a b hab => .pure ?_
  cases hab with
  | none => rfl
  | some hab => rw [hab]

theorem digits : Parallel w n 1 A Grammar.digits Grammar.digits Eq B :=
  takeWhile1 (h.of_imp fun _ => isTokenChar_of_isDigit) hBA

theorem real : Parallel w n 1 A Grammar.real Grammar.real Eq B := by
  have hpoint : Parallel w n 1 A (Parser.char '.') (Parser.char '.') Eq B :=
    char (h.of_imp fun c hc => by rw [beq_iff_eq.1 hc]; decide)
  refine (sign h hBA).bind ?_
  rintro negative _ rfl
  refine (digits h hBA).bind_left ?_
  rintro whole _ rfl
  refine (hpoint.start hBA).less.discard.bind fun _ _ _ => ?_
  refine ((digits h hBA).start hBA).less.bind ?_
  rintro fraction _ rfl
  exact (Parallel.notFollowedBy (hpoint.start hBA)).bind fun _ _ _ => .pure rfl

/-- A number out of range halts where it starts, so that this place has to correspond. -/
theorem integer : Parallel w n 1 (fun i j => A i j ∧ w.Place i j) Grammar.integer Grammar.integer
    Eq B := by
  refine Parallel.here.bind fun start start' hstart => ?_
  refine ((sign h hBA).start fun _ _ hij => hij.1).bind ?_
  rintro negative _ rfl
  refine (digits h hBA).bind_left ?_
  rintro ds _ rfl
  dsimp only
  split
  · exact .pure rfl
  · exact .haltAt hstart.2

theorem boolean : Parallel w n 1 A Grammar.boolean Grammar.boolean Eq B := by
  refine .orElse ?_ ?_
  · exact (word h hBA (by decide)).bind_left fun _ _ _ => .pure rfl
  · exact (word h hBA (by decide)).bind_left fun _ _ _ => .pure rfl

/-! ## Operators -/

/-- Division is taken apart: what follows its sign may make it the start of a comment. -/
theorem operator (hdivide : Parallel w n 1 A (operatorSign .divide) (operatorSign .divide)
      (fun _ _ => True) B) : Parallel w n 1 A Grammar.operator Grammar.operator Eq B := by
  refine .choice fun p hp => ?_
  obtain ⟨o, -, rfl⟩ := List.mem_map.1 hp
  have hsign : Parallel w n 1 A (operatorSign o) (operatorSign o) (fun _ _ => True) B := by
    cases o with
    | divide => exact hdivide
    | and | or => exact word h hBA (by decide)
    | _ => exact text h hBA (List.all_eq_true.1 (by decide)) (by decide)
  exact hsign.bind_left fun _ _ _ => .pure rfl

end

end Parser.Parallel

end Primer
