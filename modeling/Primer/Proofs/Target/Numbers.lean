import Primer.Proofs.ReadErrors.Values
import Primer.Proofs.Target.Escapes
import Primer.Proofs.Target.StaticType

/-!
Whole numbers from the text of a program to the text in C++. A `Number` of C++ is always one that its
type holds, and an operation whose exact result the type does not hold gives none, so that nothing is
denoted where a result on the way leaves its type. Main statement: a whole number is read as the
integer or the natural number that it is, and what is written for it denotes that very number
(`Expr.parse_number_exact`).
-/

namespace Primer

namespace Target

/-! ## Whole numbers in C++ -/

/-- Whether the type is one of whole numbers and holds this one. An `int` has 32 bits. -/
def CppType.holds : CppType → Int → Bool
  | int, v => -2 ^ 31 ≤ v && v < 2 ^ 31
  | longLong, v => -2 ^ 63 ≤ v && v < 2 ^ 63
  | unsignedLongLong, v => 0 ≤ v && v < 2 ^ 64
  | _, _ => false

/-- A whole number in a type that holds it. -/
structure Number where
  type : CppType
  value : Int
  holds : type.holds value = true
deriving DecidableEq, Repr

namespace Number

/-- The number in the type, if that holds it. -/
def of? (type : CppType) (value : Int) : Option Number :=
  if h : type.holds value = true then some ⟨type, value, h⟩ else none

theorem of?_eq_some {type : CppType} {value : Int} (h : type.holds value = true) :
    of? type value = some ⟨type, value, h⟩ := dif_pos h

def neg? (a : Number) : Option Number := of? a.type (-a.value)

/-- The difference, in the type that both numbers are converted to. -/
def sub? (a b : Number) : Option Number := do
  let type := a.type.usual b.type
  let a ← of? type a.value
  let b ← of? type b.value
  of? type (a.value - b.value)

end Number

/-- What the digits of a literal stand for: behind a zero they are octal. -/
def magnitude? : List Char → Option Nat
  | [] => none
  | '0' :: digits => if digits.all isOctalDigit then some (ofOctal digits) else none
  | digits => some (Nat.ofDigitChars 10 digits 0)

/-- The type of a literal by what stands behind its digits. -/
def suffixType? : List Char → Option CppType
  | [] => some .int
  | ['L', 'L'] => some .longLong
  | ['U', 'L', 'L'] => some .unsignedLongLong
  | _ => none

/-- The number that a literal stands for, maybe with a minus before it. -/
def signed? : List Char → Option Number
  | '-' :: cs => do (← unsigned? cs).neg?
  | cs => unsigned? cs
where
  unsigned? (cs : List Char) : Option Number := do
    let magnitude ← magnitude? (cs.takeWhile Char.isDigit)
    Number.of? (← suffixType? (cs.dropWhile Char.isDigit)) magnitude

/-- The number that a text denotes: a signed literal, or the difference of two in parentheses. -/
def denoted? : List Char → Option Number
  | '(' :: cs =>
    match cs.dropWhile (· != ' ') with
    | ' ' :: '-' :: ' ' :: right =>
      if right.dropWhile (· != ')') = [')'] then do
        (← signed? (cs.takeWhile (· != ' '))).sub? (← signed? (right.takeWhile (· != ')')))
      else none
    | _ => none
  | cs => signed? cs

/-! ## What is written -/

theorem head?_toDigits_ne {n : Nat} (h : n ≠ 0) : (Nat.toDigits 10 n).head? ≠ some '0' := by
  induction n using Nat.strong_induction_on with
  | _ n ih =>
    by_cases hlt : n < 10
    · have hdigit : ∀ d < 10, d ≠ 0 → [Nat.digitChar d].head? ≠ some '0' := by decide
      rw [Nat.toDigits_of_lt_base hlt]
      exact hdigit n hlt h
    · rw [Nat.toDigits_of_base_le (by decide) (by omega), List.head?_append_of_ne_nil _ Nat.toDigits_ne_nil]
      exact ih (n / 10) (by omega) (by omega)

theorem magnitude?_toDigits (n : Nat) : magnitude? (Nat.toDigits 10 n) = some n := by
  by_cases hn : n = 0
  · subst hn
    rfl
  · have hvalue := @Nat.ofDigitChars_ten_toDigits n
    have hhead := head?_toDigits_ne hn
    obtain ⟨c, tail, hcons⟩ := List.exists_cons_of_ne_nil (Nat.toDigits_ne_nil (b := 10) (n := n))
    rw [hcons] at hvalue hhead ⊢
    rw [magnitude?, hvalue]
    · simp
    · rintro digits ⟨⟩
      exact hhead rfl

section
variable {suffix : List Char} {type : CppType} (hsuffix : ∀ c ∈ suffix.head?, c.isDigit = false)
variable (htype : suffixType? suffix = some type)
include hsuffix htype

theorem unsigned?_toDigits (n : Nat) :
    signed?.unsigned? (Nat.toDigits 10 n ++ suffix) = Number.of? type n := by
  have hdigits : ∀ c ∈ Nat.toDigits 10 n, c.isDigit = true := fun _ => isDigit_of_mem_toDigits
  have hdrop : (Nat.toDigits 10 n ++ suffix).dropWhile Char.isDigit = suffix := by
    rw [List.dropWhile_append_of_pos hdigits]
    cases suffix with
    | nil => rfl
    | cons c suffix => rw [List.dropWhile_cons_of_neg (by simp [hsuffix c rfl])]
  rw [signed?.unsigned?, Parser.takeWhile_append hdigits hsuffix, hdrop, magnitude?_toDigits, htype]
  rfl

/-- A number by its digits, with a minus before them if it is negative, if that is not the least of the
type. -/
theorem denoted?_toString {v : Int} (hv : type.holds v = true) (habs : type.holds v.natAbs = true) :
    denoted? ((toString v).toList ++ suffix) = some ⟨type, v, hv⟩ := by
  have hunsigned := unsigned?_toDigits hsuffix htype v.natAbs
  rw [Number.of?_eq_some habs] at hunsigned
  have hsigned : signed? ((toString v).toList ++ suffix) = some ⟨type, v, hv⟩ := by
    rw [toList_toString_int, List.append_assoc]
    split
    case isTrue hneg =>
      have hvalue : -(v.natAbs : Int) = v := by omega
      rw [List.singleton_append, signed?, hunsigned, Option.bind_eq_bind, Option.bind_some, Number.neg?]
      simp only [hvalue, Number.of?_eq_some hv]
    case isFalse hpos =>
      have hvalue : (v.natAbs : Int) = v := by omega
      rw [List.nil_append, signed?, hunsigned]
      · simp only [hvalue]
      · intro cs hcs
        have hdigit := Grammar.head?_digits Nat.toDigits_ne_nil (fun _ => isDigit_of_mem_toDigits) suffix
          '-' (by rw [hcs]; rfl)
        exact absurd hdigit (by decide)
  rw [denoted?, hsigned]
  intro cs hcs
  obtain ⟨c, tail, hcons, hc⟩ := exists_head_int v
  rw [hcons] at hcs
  cases hcs
  exact absurd hc (by decide)

end

/-- The least integer is written as a difference, as its digits alone do not fit; all others by their
digits. -/
theorem denoted?_integer {v : Int} (hlow : -2 ^ 63 ≤ v) (hhigh : v < 2 ^ 63) :
    ∃ h, denoted? (literal (.integer v)).toList = some ⟨.longLong, v, h⟩ := by
  have hholds {w : Int} (h : -2 ^ 63 ≤ w ∧ w < 2 ^ 63) : CppType.longLong.holds w = true := by
    simpa [CppType.holds] using h
  refine ⟨hholds ⟨hlow, hhigh⟩, ?_⟩
  by_cases hleast : v = leastInteger
  · have hdifference : denoted? (literal (.integer leastInteger)).toList =
        Number.of? .longLong leastInteger := by decide
    subst hleast
    rw [hdifference, Number.of?_eq_some]
  · have htext : (literal (.integer v)).toList = (toString v).toList ++ ['L', 'L'] := by
      simp [literal, if_neg hleast]
    have hne : v ≠ -2 ^ 63 := hleast
    rw [htext]
    exact denoted?_toString (by rintro c ⟨⟩; decide) rfl _ (hholds (by omega))

example : denoted? "-9223372036854775808LL".toList = none := by decide

theorem denoted?_natural {n : Nat} (h : n < 2 ^ 64) :
    ∃ h, denoted? (literal (.natural n)).toList = some ⟨.unsignedLongLong, n, h⟩ := by
  have hholds : CppType.unsignedLongLong.holds n = true := by
    simp only [CppType.holds, Bool.and_eq_true, decide_eq_true_eq]
    omega
  have htext : (literal (.natural n)).toList = (toString (n : Int)).toList ++ ['U', 'L', 'L'] := by
    rw [literal, String.toList_append]
    rfl
  refine ⟨hholds, ?_⟩
  rw [htext]
  exact denoted?_toString (by rintro c ⟨⟩; decide) rfl _ hholds

end Target

theorem Literal.ofInt?_of_ge {v : Int} (hlow : 2 ^ 63 ≤ v) (hhigh : v < 2 ^ 64) :
    Literal.ofInt? v = some (.natural v.toNat) := by
  rw [Literal.ofInt?, if_neg, if_pos]
  · simp only [greatestNatural]
    omega
  · simp only [greatestInteger]
    omega

theorem Literal.ofInt?_eq_none {v : Int} (h : v < -2 ^ 63 ∨ 2 ^ 64 ≤ v) : Literal.ofInt? v = none := by
  rw [Literal.ofInt?, if_neg, if_neg]
  · simp only [greatestNatural]
    omega
  · simp only [leastInteger, greatestInteger]
    omega

/-- Whole numbers keep their values. Signed digits with the value `v`, with zeros at the start or without,
are read as an integer or as a natural number or do not fit, as `v` lies within the bounds of 64 bits,
and what is written in C++ for the one or the other denotes `v` in a type of 64 bits. -/
theorem Expr.parse_number_exact (sign digits : List Char) (hsign : sign ∈ [[], ['+'], ['-']])
    (hne : digits ≠ []) (hdigits : ∀ c ∈ digits, c.isDigit = true) {v : Int}
    (hv : signedValue sign digits = v) :
    (-2 ^ 63 ≤ v → v < 2 ^ 63 →
      Expr.parse (String.ofList (sign ++ digits)) = .ok (.literal (.integer v)) ∧
      ∃ h, Target.denoted? (Target.literal (.integer v)).toList = some ⟨.longLong, v, h⟩) ∧
    (2 ^ 63 ≤ v → v < 2 ^ 64 →
      Expr.parse (String.ofList (sign ++ digits)) = .ok (.literal (.natural v.toNat)) ∧
      ∃ h, Target.denoted? (Target.literal (.natural v.toNat)).toList =
        some ⟨.unsignedLongLong, v, h⟩) ∧
    (v < -2 ^ 63 ∨ 2 ^ 64 ≤ v → Expr.parse (String.ofList (sign ++ digits)) =
      .error ⟨.numberOutOfRange, ⟨(String.ofList (sign ++ digits)).utf8ByteSize⟩⟩) := by
  subst hv
  refine ⟨fun hlow hhigh => ⟨?_, ?_⟩, fun hlow hhigh => ⟨?_, ?_⟩, fun hout => ?_⟩
  · exact parse_number hsign hne hdigits (Literal.ofInt?_integer ⟨hlow, Int.lt_add_one_iff.1 hhigh⟩)
  · exact Target.denoted?_integer hlow hhigh
  · exact parse_number hsign hne hdigits (Literal.ofInt?_of_ge hlow hhigh)
  · have hdenoted := Target.denoted?_natural (n := (signedValue sign digits).toNat) (by omega)
    rwa [Int.toNat_of_nonneg (by omega)] at hdenoted
  · rw [parse_number_out_of_range hsign hne hdigits (Literal.ofInt?_eq_none hout), utf8ByteSize_ofList]

/-- The least integer with zeros before it, the greatest natural number, and the next. -/
theorem Expr.parse_number_exact_bounds :
    (Expr.parse "-009223372036854775808" = .ok (.literal (.integer (-2 ^ 63))) ∧
      ∃ h, Target.denoted? "(-9223372036854775807LL - 1)".toList = some ⟨.longLong, -2 ^ 63, h⟩) ∧
    (Expr.parse "+18446744073709551615" = .ok (.literal (.natural (2 ^ 64 - 1))) ∧
      ∃ h, Target.denoted? "18446744073709551615ULL".toList =
        some ⟨.unsignedLongLong, 2 ^ 64 - 1, h⟩) ∧
    Expr.parse "18446744073709551616" = .error ⟨.numberOutOfRange, ⟨20⟩⟩ := by
  have hleast := parse_number_exact ['-'] "009223372036854775808".toList (by decide) (by decide)
    (List.all_eq_true.1 (by decide)) (v := -2 ^ 63) (by decide)
  have hgreatest := parse_number_exact ['+'] "18446744073709551615".toList (by decide) (by decide)
    (List.all_eq_true.1 (by decide)) (v := 2 ^ 64 - 1) (by decide)
  have hnext := parse_number_exact [] "18446744073709551616".toList (by decide) (by decide)
    (List.all_eq_true.1 (by decide)) (v := 2 ^ 64) (by decide)
  exact ⟨hleast.1 (by decide) (by decide), hgreatest.2.1 (by decide) (by decide), hnext.2.2 (by decide)⟩

end Primer
