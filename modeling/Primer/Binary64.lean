import Primer.Decimal

/-!
Binary floating point numbers of 64 bits, in exact arithmetic. A magnitude is the bit pattern without
the sign, which grows with the value. Reading rounds a decimal to the nearest magnitude; writing finds
the coarsest decimal grid with a neighbour of the value that reads back.
-/

namespace Primer

/-- A sign and a magnitude. -/
structure Binary64 where
  negative : Bool
  magnitude : Nat
deriving DecidableEq, Repr

namespace Binary64

/-- The number of magnitudes with the same exponent, `2 ^ 52`. -/
def binade : Nat := 4503599627370496

/-- The magnitude past the finite ones. -/
def infinity : Nat := 2047 * binade

/-- How many times the least magnitude goes into one, `2 ^ 1074`. -/
def unitsInOne : Nat := Nat.pow 2 1074

def isFinite (x : Binary64) : Bool := x.magnitude < infinity

/-- The full bit pattern. -/
def bits (x : Binary64) : Nat := (if x.negative then 2048 * binade else 0) + x.magnitude

/-- The whole number nearest to `num / den`, the even one of two equally near. -/
def roundDiv (num den : Nat) : Nat :=
  let q := num / den
  let r := num % den
  if 2 * r < den then q else if den < 2 * r then q + 1 else q + q % 2

/-- The magnitude nearest to a decimal; past the largest finite one it is infinite. The significand
takes 53 bits, fewer only below the normal range. The exponent is added in place, so that a
significand rounded up to 54 bits carries into it. -/
def ofDecimal (d : Decimal) : Nat :=
  let num := d.digits * unitsInOne
  let den := Nat.pow 10 d.places
  let shift := (num / den).log2 - 52
  min (roundDiv num (den * Nat.pow 2 shift) + shift * binade) infinity

/-- The value of a finite magnitude as a multiple of the least one. -/
def units (magnitude : Nat) : Nat :=
  if magnitude < binade then magnitude
  else (binade + magnitude % binade) * Nat.pow 2 (magnitude / binade - 1)

/-- The value of a finite magnitude, with as many decimal places as it has binary ones. -/
def exact (magnitude : Nat) : Decimal :=
  let common := (units magnitude).gcd unitsInOne
  let places := (unitsInOne / common).log2
  ⟨units magnitude / common * Nat.pow 5 places, places⟩

/-- Of the two neighbours of a value among the multiples of `step`, the one that reads back as
`magnitude`, the nearer one if both do and the upper one if they are equally near. -/
def neighbour? (magnitude : Nat) (d : Decimal) (step : Nat) : Option Decimal :=
  let low := d.digits / step * step
  let high := low + step
  let lowReads := ofDecimal ⟨low, d.places⟩ == magnitude
  let highReads := ofDecimal ⟨high, d.places⟩ == magnitude
  if lowReads && (!highReads || d.digits - low < high - d.digits) then some ⟨low, d.places⟩
  else if highReads then some ⟨high, d.places⟩
  else none

/-- The neighbour of a value that reads back, for the largest step among the powers of ten up to
`10 ^ n` that has one, or else the value itself. -/
def coarsest (magnitude : Nat) (d : Decimal) : Nat → Decimal
  | 0 => d
  | n + 1 => (neighbour? magnitude d (Nat.pow 10 (n + 1))).getD (coarsest magnitude d n)

/-- The decimal with the fewest digits that reads back, and the nearest of those. -/
def shortest (magnitude : Nat) : Decimal :=
  let d := exact magnitude
  coarsest magnitude d (Nat.toDigits 10 d.digits).length

/-- The number as it is written, never with an exponent. -/
def chars (x : Binary64) : List Char :=
  (if x.negative then ['-'] else []) ++
    if x.isFinite then (shortest x.magnitude).chars else ['i', 'n', 'f']

def text (x : Binary64) : String := String.ofList x.chars

/-- The text of the number, with a fraction also if it is whole. -/
def literalText (x : Binary64) : String :=
  if x.chars.contains '.' then x.text else x.text ++ ".0"

end Binary64

end Primer
