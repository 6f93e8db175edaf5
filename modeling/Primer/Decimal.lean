/-!
Decimal numbers without a sign: a whole number of units of some decimal place.
-/

namespace Primer

/-- The value of a list of decimal digits. -/
def ofDigits (digits : List Char) : Nat :=
  digits.foldl (fun n c => 10 * n + (c.toNat - '0'.toNat)) 0

/-- The number `digits / 10 ^ places`. -/
structure Decimal where
  digits : Nat
  places : Nat
deriving DecidableEq, Repr

namespace Decimal

/-- The number with these digits before and after the point. -/
def ofParts (whole fraction : List Char) : Decimal :=
  ⟨ofDigits (whole ++ fraction), fraction.length⟩

/-- The digits before the point. -/
def whole (d : Decimal) : List Char := Nat.toDigits 10 (d.digits / Nat.pow 10 d.places)

/-- The digits after the point, without the zeros at the end. -/
def fraction (d : Decimal) : List Char :=
  let digits := Nat.toDigits 10 (d.digits % Nat.pow 10 d.places)
  (List.replicate (d.places - digits.length) '0' ++ digits).reverse.dropWhile (· == '0') |>.reverse

/-- The number as it is written, with neither point nor fraction if it is whole. -/
def chars (d : Decimal) : List Char :=
  d.whole ++ if d.fraction.isEmpty then [] else '.' :: d.fraction

end Decimal

end Primer
