import Mathlib.Algebra.Order.Ring.Nat
import Mathlib.Data.Nat.Prime.Basic
import Mathlib.Tactic.Positivity
import Mathlib.Tactic.Ring
import Primer.Binary64

/-!
Floating point numbers read back as they are written. Rounding a decimal depends on its value only
(`ofDecimal_congr`), so the digits and places of a written number may be those of any decimal of the
same value; the exact value of a magnitude rounds to it (`ofDecimal_exact`), and a shorter decimal is
written only if it does, too.
-/

namespace Primer

/-! ## Digits -/

theorem ofDigits_eq (digits : List Char) : ofDigits digits = Nat.ofDigitChars 10 digits 0 := rfl

theorem ofDigits_append (l r : List Char) :
    ofDigits (l ++ r) = ofDigits l * 10 ^ r.length + ofDigits r := by
  rw [ofDigits_eq, Nat.ofDigitChars_append, Nat.ofDigitChars_eq_ofDigitChars_zero, Nat.mul_comm]
  rfl

theorem ofDigits_toDigits (n : Nat) : ofDigits (Nat.toDigits 10 n) = n := by
  rw [ofDigits_eq, Nat.ofDigitChars_ten_toDigits]

theorem ofDigits_zeros (n : Nat) : ofDigits (List.replicate n '0') = 0 := by
  rw [ofDigits_eq, Nat.ofDigitChars_replicate_zero, Nat.mul_zero]

/-- A list is what is left when its last zeros are dropped, and zeros. -/
theorem exists_zeros (l : List Char) : ∃ k,
    l = (l.reverse.dropWhile (· == '0')).reverse ++ List.replicate k '0' := by
  refine ⟨(l.reverse.takeWhile (· == '0')).length, ?_⟩
  have hzeros : List.replicate (l.reverse.takeWhile (· == '0')).length '0' =
      l.reverse.takeWhile (· == '0') := by
    symm
    rw [List.eq_replicate_iff]
    refine ⟨rfl, fun c hc => ?_⟩
    have hall := List.all_takeWhile (l := l.reverse) (p := (· == '0'))
    exact beq_iff_eq.1 (List.all_eq_true.1 hall c hc)
  have hsplit : l.reverse.takeWhile (· == '0') ++ l.reverse.dropWhile (· == '0') = l.reverse :=
    List.takeWhile_append_dropWhile
  calc l = l.reverse.reverse := l.reverse_reverse.symm
    _ = (l.reverse.dropWhile (· == '0')).reverse ++ (l.reverse.takeWhile (· == '0')).reverse := by
      rw [← List.reverse_append, hsplit]
    _ = _ := by rw [← hzeros, List.reverse_replicate, List.length_replicate]

namespace Decimal

/-- The decimals have the same value. -/
def Same (d e : Decimal) : Prop := d.digits * 10 ^ e.places = e.digits * 10 ^ d.places

theorem isDigit_of_mem_whole {d : Decimal} {c : Char} (h : c ∈ d.whole) : c.isDigit = true :=
  Nat.isDigit_of_mem_toDigits (by decide) (by decide) h

theorem whole_ne_nil (d : Decimal) : d.whole ≠ [] := Nat.toDigits_ne_nil

/-- The digits of the part below the point, with the zeros at the end. -/
def padded (d : Decimal) : List Char :=
  let digits := Nat.toDigits 10 (d.digits % Nat.pow 10 d.places)
  List.replicate (d.places - digits.length) '0' ++ digits

theorem fraction_eq (d : Decimal) :
    d.fraction = (d.padded.reverse.dropWhile (· == '0')).reverse := rfl

theorem isDigit_of_mem_padded {d : Decimal} {c : Char} (h : c ∈ d.padded) : c.isDigit = true := by
  rcases List.mem_append.1 h with h | h
  · rw [List.eq_of_mem_replicate h]
    decide
  · exact Nat.isDigit_of_mem_toDigits (by decide) (by decide) h

theorem isDigit_of_mem_fraction {d : Decimal} {c : Char} (h : c ∈ d.fraction) :
    c.isDigit = true := by
  obtain ⟨k, hk⟩ := exists_zeros d.padded
  apply isDigit_of_mem_padded (d := d)
  rw [hk, ← fraction_eq]
  exact List.mem_append_left _ h

theorem ofDigits_padded (d : Decimal) : ofDigits d.padded = d.digits % 10 ^ d.places := by
  rw [padded, ofDigits_append, ofDigits_zeros, ofDigits_toDigits, Nat.zero_mul, Nat.zero_add]
  rfl

theorem length_padded {d : Decimal} (h : 0 < d.places) : d.padded.length = d.places := by
  have hlen : (Nat.toDigits 10 (d.digits % Nat.pow 10 d.places)).length ≤ d.places :=
    (Nat.length_toDigits_le_iff (by decide) h).2 (Nat.mod_lt _ (Nat.pow_pos (by decide)))
  rw [padded, List.length_append, List.length_replicate]
  omega

theorem ofDigits_fraction (d : Decimal) : ∃ k, d.fraction.length + k = d.padded.length ∧
    ofDigits d.fraction * 10 ^ k = d.digits % 10 ^ d.places := by
  obtain ⟨k, hk⟩ := exists_zeros d.padded
  rw [← fraction_eq] at hk
  refine ⟨k, ?_, ?_⟩
  · conv_rhs => rw [hk]
    rw [List.length_append, List.length_replicate]
  · rw [← ofDigits_padded, hk, ofDigits_append, ofDigits_zeros, List.length_replicate,
      Nat.add_zero]

/-- The digits before and after the point make up the number. -/
theorem same_ofParts (d : Decimal) : Same (ofParts d.whole d.fraction) d := by
  obtain ⟨k, hk, hfraction⟩ := ofDigits_fraction d
  have hdigits : ofDigits (d.whole ++ d.fraction) =
      d.digits / 10 ^ d.places * 10 ^ d.fraction.length + ofDigits d.fraction := by
    rw [ofDigits_append, whole, ofDigits_toDigits]
    rfl
  have hvalue := Nat.div_add_mod' d.digits (10 ^ d.places)
  simp only [Same, ofParts, hdigits]
  rcases Nat.eq_zero_or_pos d.places with hp | hp
  · -- no places: there is one digit below the point, a zero, which is dropped
    simp only [hp, Nat.pow_zero, Nat.div_one, Nat.mod_one, Nat.mul_one] at hfraction ⊢
    have hzero : ofDigits d.fraction = 0 := by
      rcases Nat.mul_eq_zero.1 hfraction with h | h
      · exact h
      · exact absurd h (by positivity)
    rw [hzero, Nat.add_zero]
  · rw [length_padded hp] at hk
    calc (d.digits / 10 ^ d.places * 10 ^ d.fraction.length + ofDigits d.fraction) * 10 ^ d.places
        = (d.digits / 10 ^ d.places * 10 ^ d.places + ofDigits d.fraction * 10 ^ k) *
            10 ^ d.fraction.length := by
          rw [← hk]; ring
      _ = d.digits * 10 ^ d.fraction.length := by rw [hfraction, hvalue]

/-- A zero after the point does not matter. -/
theorem same_ofParts_zero {d : Decimal} (h : d.fraction = []) : Same (ofParts d.whole ['0']) d := by
  have hsame := same_ofParts d
  simp only [Same, ofParts, h, List.append_nil, List.length_nil, Nat.pow_zero, Nat.mul_one]
    at hsame ⊢
  rw [ofDigits_append, show ofDigits ['0'] = 0 from rfl, List.length_singleton, ← hsame]
  ring

end Decimal

namespace Binary64

/-! ## Rounding -/

theorem roundDiv_mul_right (num den : Nat) {k : Nat} (hk : 0 < k) :
    roundDiv (num * k) (den * k) = roundDiv num den := by
  have hlow : 2 * (num % den * k) < den * k ↔ 2 * (num % den) < den := by
    rw [← Nat.mul_assoc, Nat.mul_lt_mul_right hk]
  have hhigh : den * k < 2 * (num % den * k) ↔ den < 2 * (num % den) := by
    rw [← Nat.mul_assoc, Nat.mul_lt_mul_right hk]
  simp only [roundDiv, Nat.mul_div_mul_right num den hk, Nat.mul_mod_mul_right, hlow, hhigh]

theorem roundDiv_congr {num den num' den' : Nat} (hden : 0 < den) (hden' : 0 < den')
    (h : num * den' = num' * den) : roundDiv num den = roundDiv num' den' := by
  rw [← roundDiv_mul_right num den hden', ← roundDiv_mul_right num' den' hden, h,
    Nat.mul_comm den den']

theorem div_congr {num den num' den' : Nat} (hden : 0 < den) (hden' : 0 < den')
    (h : num * den' = num' * den) : num / den = num' / den' := by
  rw [← Nat.mul_div_mul_right num den hden', h, Nat.mul_comm den den',
    Nat.mul_div_mul_right num' den' hden]

theorem roundDiv_one (n : Nat) : roundDiv n 1 = n := by simp [roundDiv, Nat.mod_one]

/-- Rounding depends on the value only. -/
theorem ofDecimal_congr {d e : Decimal} (h : d.Same e) : ofDecimal d = ofDecimal e := by
  have hd : 0 < 10 ^ d.places := by positivity
  have he : 0 < 10 ^ e.places := by positivity
  have hnum : d.digits * unitsInOne * 10 ^ e.places = e.digits * unitsInOne * 10 ^ d.places := by
    calc d.digits * unitsInOne * 10 ^ e.places
        = d.digits * 10 ^ e.places * unitsInOne := by ring
      _ = e.digits * 10 ^ d.places * unitsInOne := by rw [h]
      _ = e.digits * unitsInOne * 10 ^ d.places := by ring
  have hround (k : Nat) : roundDiv (d.digits * unitsInOne) (10 ^ d.places * 2 ^ k) =
      roundDiv (e.digits * unitsInOne) (10 ^ e.places * 2 ^ k) := by
    apply roundDiv_congr (by positivity) (by positivity)
    rw [← Nat.mul_assoc, hnum, Nat.mul_assoc]
  simp only [ofDecimal, Nat.pow_eq, div_congr hd he hnum, hround]

/-- A decimal that is a whole number of units. -/
theorem ofDecimal_of_units {d : Decimal} {u : Nat} (h : d.digits * unitsInOne = u * 10 ^ d.places) :
    ofDecimal d = min (roundDiv u (2 ^ (u.log2 - 52)) + (u.log2 - 52) * binade) infinity := by
  have hd : 0 < 10 ^ d.places := by positivity
  have hdiv : d.digits * unitsInOne / 10 ^ d.places = u := by
    rw [h, Nat.mul_div_cancel _ hd]
  simp only [ofDecimal, Nat.pow_eq, hdiv]
  rw [h, Nat.mul_comm (10 ^ d.places), roundDiv_mul_right _ _ hd]

theorem exists_unitsInOne_eq : ∃ e, unitsInOne = 2 ^ e := ⟨1074, Nat.pow_eq⟩

theorem binade_eq : binade = 2 ^ 52 := by decide

theorem exact_digits (magnitude : Nat) : (exact magnitude).digits * unitsInOne =
    units magnitude * 10 ^ (exact magnitude).places := by
  obtain ⟨e, he⟩ := exists_unitsInOne_eq
  have hdvd : (units magnitude).gcd unitsInOne ∣ 2 ^ e := he ▸ Nat.gcd_dvd_right _ _
  obtain ⟨k, hk, hcommon⟩ := (Nat.dvd_prime_pow Nat.prime_two).1 hdvd
  have hquot : unitsInOne / 2 ^ k = 2 ^ (e - k) := by rw [he, Nat.pow_div hk (by decide)]
  have hunits : unitsInOne = 2 ^ k * 2 ^ (e - k) := by
    rw [he, ← Nat.pow_add, Nat.add_sub_cancel' hk]
  have hu : units magnitude / 2 ^ k * 2 ^ k = units magnitude :=
    Nat.div_mul_cancel (hcommon ▸ Nat.gcd_dvd_left _ _)
  simp only [exact, Nat.pow_eq, hcommon, hquot, Nat.log2_two_pow]
  rw [hunits]
  calc units magnitude / 2 ^ k * 5 ^ (e - k) * (2 ^ k * 2 ^ (e - k))
      = units magnitude / 2 ^ k * 2 ^ k * (5 ^ (e - k) * 2 ^ (e - k)) := by ring
    _ = units magnitude * 10 ^ (e - k) := by rw [hu, ← Nat.mul_pow]

/-- The exact value of a finite magnitude rounds to it. -/
theorem ofDecimal_exact {magnitude : Nat} (h : magnitude < infinity) :
    ofDecimal (exact magnitude) = magnitude := by
  rw [ofDecimal_of_units (exact_digits magnitude)]
  by_cases hsub : magnitude < binade
  · -- below the normal range the magnitude is the number of units
    have hshift : magnitude.log2 - 52 = 0 := by
      rcases Nat.eq_zero_or_pos magnitude with rfl | hpos
      · simp
      · rw [binade_eq] at hsub
        have := (Nat.log2_lt (Nat.ne_of_gt hpos)).2 hsub
        omega
    rw [units, if_pos hsub, hshift, Nat.pow_zero, roundDiv_one, Nat.zero_mul, Nat.add_zero]
    exact Nat.min_eq_left (Nat.le_of_lt h)
  · have hexp : 1 ≤ magnitude / binade :=
      (Nat.one_le_div_iff (by decide)).2 (Nat.le_of_not_lt hsub)
    have hmod : magnitude % binade < binade := Nat.mod_lt _ (by decide)
    have hlog : (units magnitude).log2 = 52 + (magnitude / binade - 1) := by
      have hpow : 0 < 2 ^ (magnitude / binade - 1) := by positivity
      have hne : (binade + magnitude % binade) * 2 ^ (magnitude / binade - 1) ≠ 0 :=
        Nat.mul_ne_zero (Nat.ne_of_gt (Nat.add_pos_left (by decide) _)) (Nat.ne_of_gt hpow)
      rw [units, if_neg hsub, Nat.pow_eq, Nat.log2_eq_iff hne, Nat.pow_add,
        Nat.add_right_comm, Nat.pow_add, ← binade_eq]
      refine ⟨Nat.mul_le_mul_right _ (Nat.le_add_right _ _), Nat.mul_lt_mul_of_pos_right ?_ hpow⟩
      have hbin : 2 ^ (52 + 1) = binade + binade := by decide
      omega
    have hround : roundDiv (units magnitude) (2 ^ (magnitude / binade - 1)) =
        binade + magnitude % binade := by
      have hcancel := roundDiv_mul_right (binade + magnitude % binade) 1
        (k := 2 ^ (magnitude / binade - 1)) (by positivity)
      rw [units, if_neg hsub, Nat.pow_eq]
      rw [Nat.one_mul, roundDiv_one] at hcancel
      exact hcancel
    rw [hlog, Nat.add_sub_cancel_left, hround]
    have hvalue : binade + magnitude % binade + (magnitude / binade - 1) * binade = magnitude := by
      calc binade + magnitude % binade + (magnitude / binade - 1) * binade
          = (magnitude / binade - 1 + 1) * binade + magnitude % binade := by ring
        _ = magnitude := by rw [Nat.sub_add_cancel hexp, Nat.div_add_mod']
    rw [hvalue]
    exact Nat.min_eq_left (Nat.le_of_lt h)

/-! ## Writing -/

theorem ofDecimal_neighbour {magnitude step : Nat} {d e : Decimal}
    (h : neighbour? magnitude d step = some e) : ofDecimal e = magnitude := by
  simp only [neighbour?] at h
  split at h
  case isTrue hlow =>
    cases h
    exact beq_iff_eq.1 (Bool.and_eq_true_iff.1 hlow).1
  case isFalse =>
    split at h
    case isTrue hhigh =>
      cases h
      exact beq_iff_eq.1 hhigh
    case isFalse => cases h

/-- What is written is the value itself or a neighbour of it. -/
theorem coarsest_induct {magnitude : Nat} {d : Decimal} {P : Decimal → Prop} (hd : P d)
    (hneighbour : ∀ step e, neighbour? magnitude d step = some e → P e) (n : Nat) :
    P (coarsest magnitude d n) := by
  induction n with
  | zero => exact hd
  | succ n ih =>
    rw [coarsest]
    cases h : neighbour? magnitude d (Nat.pow 10 (n + 1)) with
    | none => exact ih
    | some e => exact hneighbour _ e h

theorem ofDecimal_shortest {magnitude : Nat} (h : magnitude < infinity) :
    ofDecimal (shortest magnitude) = magnitude :=
  coarsest_induct (P := fun e => ofDecimal e = magnitude) (ofDecimal_exact h)
    (fun _ _ he => ofDecimal_neighbour he) _

/-- The text that a decimal gives: a sign, and digits on both sides of a point that read back. -/
theorem literalText_of_chars {x : Binary64} {d : Decimal}
    (hchars : x.chars = (if x.negative then ['-'] else []) ++ d.chars)
    (hd : ofDecimal d = x.magnitude) : ∃ whole fraction,
    x.literalText.toList = (if x.negative then ['-'] else []) ++ (whole ++ '.' :: fraction) ∧
      whole ≠ [] ∧ (∀ c ∈ whole, c.isDigit = true) ∧
      fraction ≠ [] ∧ (∀ c ∈ fraction, c.isDigit = true) ∧
      ofDecimal (Decimal.ofParts whole fraction) = x.magnitude := by
  have hpoint : '.' ∉ (if x.negative then ['-'] else []) ++ d.whole := by
    rw [List.mem_append]
    rintro (hsign | hwhole)
    · cases hx : x.negative <;> simp [hx] at hsign
    · exact absurd (Decimal.isDigit_of_mem_whole hwhole) (by decide)
  by_cases hf : d.fraction = []
  · refine ⟨d.whole, ['0'], ?_, d.whole_ne_nil, fun c hc => Decimal.isDigit_of_mem_whole hc,
      by simp, by simp, ?_⟩
    · have hnone : x.chars.contains '.' = false := by
        rw [hchars, Decimal.chars, hf]
        simpa using hpoint
      rw [literalText, hnone]
      simp [text, hchars, Decimal.chars, hf]
    · rw [ofDecimal_congr (Decimal.same_ofParts_zero hf), hd]
  · refine ⟨d.whole, d.fraction, ?_, d.whole_ne_nil, fun c hc => Decimal.isDigit_of_mem_whole hc,
      hf, fun c hc => Decimal.isDigit_of_mem_fraction hc, ?_⟩
    · have hsome : x.chars.contains '.' = true := by
        rw [hchars, Decimal.chars]
        simp [hf]
      rw [literalText, hsome]
      simp [text, hchars, Decimal.chars, hf]
    · rw [ofDecimal_congr (Decimal.same_ofParts d), hd]

/-- The text of a finite number reads back. -/
theorem literalText_eq {x : Binary64} (h : x.isFinite = true) : ∃ whole fraction,
    x.literalText.toList = (if x.negative then ['-'] else []) ++ (whole ++ '.' :: fraction) ∧
      whole ≠ [] ∧ (∀ c ∈ whole, c.isDigit = true) ∧
      fraction ≠ [] ∧ (∀ c ∈ fraction, c.isDigit = true) ∧
      ofDecimal (Decimal.ofParts whole fraction) = x.magnitude := by
  have hfin : x.magnitude < infinity := of_decide_eq_true h
  exact literalText_of_chars (by rw [chars, if_pos h]) (ofDecimal_shortest hfin)

/-- The text of an infinite number has no digits before its point. -/
theorem literalText_of_infinite {x : Binary64} (h : x.isFinite = false) :
    x.literalText.toList = (if x.negative then ['-'] else []) ++ ['i', 'n', 'f', '.', '0'] := by
  have hchars : x.chars = (if x.negative then ['-'] else []) ++ ['i', 'n', 'f'] := by
    rw [chars, h]
    rfl
  rw [literalText, text, hchars]
  cases x.negative <;> decide

end Binary64

end Primer
