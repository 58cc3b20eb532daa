import EnumCover.Number.Decimal

namespace EnumCover

/-- Which of two equally near neighbours is written. -/
inductive Tie where
  | up
  | even
  deriving DecidableEq, Repr

/-- Decimal digits, the first and the last of them not zero, times a power of ten. -/
structure DigitString where
  digits : List Char
  exponent : Int
  deriving DecidableEq, Repr

namespace DigitString

def ofNat (n : Nat) (exponent : Int) : DigitString :=
  let ds := decimalDigits n
  let kept := (ds.reverse.dropWhile (· == '0')).reverse
  ⟨kept, exponent + (ds.length - kept.length : Nat)⟩

end DigitString

namespace Binary64

def powerOfTen : Int → Nat × Nat
  | .ofNat k => (tenPow k, 1)
  | .negSucc k => (1, tenPow (k + 1))

/-- The exponent of the largest power of ten that is not above `a / b`, both positive. -/
def decade (a b : Nat) : Int :=
  if b ≤ a then ((decimalDigits (a / b)).length : Int) - 1
  else -((decimalDigits ((b - 1) / a)).length : Int)

/-- How far below `x` the midpoint to its lower neighbour lies, in quarters of the unit. The gap is
half as wide below a power of two. -/
def lowerGap (x : Binary64) : Nat := if x.fraction = 0 ∧ 1 < x.biasedExponent then 1 else 2

/-- Whether `d · 10 ^ k` reads back as `x`: it lies between the midpoints to the neighbours of `x`,
and on a midpoint only if the significand is even. -/
def readsBack (x : Binary64) (k : Int) (d : Nat) : Bool :=
  let (num, den) := powerOfTen k
  let low := (4 * x.significand - x.lowerGap) * twoPow x.shift * den
  let high := (4 * x.significand + 2) * twoPow x.shift * den
  let mid := d * num * 4 * one
  if x.significand % 2 = 0 then low ≤ mid && mid ≤ high else low < mid && mid < high

/-- The multiple of `10 ^ k` nearest to the magnitude of `x`, if one reads back as `x`. -/
def nearestOnGrid? (tie : Tie) (x : Binary64) (k : Int) : Option Nat :=
  let (num, den) := powerOfTen k
  let below := x.magnitude * den / (num * one)
  match [below, below + 1].filter (fun d => 0 < d && x.readsBack k d) with
  | [d, e] =>
    let twice := 2 * x.magnitude * den
    let middle := (d + e) * num * one
    if twice < middle then some d
    else if middle < twice then some e
    else match tie with
      | .up => some e
      | .even => some (if d % 2 = 0 then d else e)
  | found => found.head?

/-- The coarsest decimal grid with a point that reads back gives the fewest digits; seventeen
digits always suffice. Zero has the single digit zero. -/
def shortest (tie : Tie) (x : Binary64) : DigitString :=
  if x.magnitude = 0 then ⟨['0'], 0⟩
  else
    let top := decade x.magnitude one
    let found := (List.range 17).findSome? fun (n : Nat) =>
      (x.nearestOnGrid? tie (top - n)).map (DigitString.ofNat · (top - n))
    found.getD ⟨['0'], 0⟩

end Binary64

end EnumCover
