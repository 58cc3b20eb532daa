import EnumCover.Number.Power

namespace EnumCover

/-- A floating-point number, given by its bit pattern. -/
structure Binary64 where
  bits : UInt64
  deriving DecidableEq, Repr

namespace Binary64

def word (x : Binary64) : Nat := x.bits.toNat

def negative (x : Binary64) : Bool := twoPow 63 ≤ x.word

def biasedExponent (x : Binary64) : Nat := x.word / twoPow 52 % twoPow 11

def fraction (x : Binary64) : Nat := x.word % twoPow 52

def isFinite (x : Binary64) : Bool := x.biasedExponent != 2047

def significand (x : Binary64) : Nat :=
  if x.biasedExponent = 0 then x.fraction else twoPow 52 + x.fraction

/-- One unit of the significand is `2 ^ shift` times the least positive number. -/
def shift (x : Binary64) : Nat := x.biasedExponent - 1

/-- The magnitude of a finite number, counted in `2 ^ -1074`. -/
def magnitude (x : Binary64) : Nat := x.significand * twoPow x.shift

def one : Nat := twoPow 1074

/-- The integer that a finite number denotes, if it denotes one. -/
def toInt? (x : Binary64) : Option Int :=
  if x.isFinite && x.magnitude % one == 0 then
    let n : Int := (x.magnitude / one : Nat)
    some (if x.negative then -n else n)
  else none

/-- Division to the nearest natural number, where a half goes to the even neighbour. -/
def divNearest (num den : Nat) : Nat :=
  let q := num / den
  let twice := 2 * (num % den)
  if twice < den then q else if den < twice then q + 1 else q + q % 2

/-- The bits below the sign of the number nearest to `num / den`, counted in `2 ^ -1074`. A carry
out of the significand moves into the exponent by itself. -/
def roundMagnitude (num den : Nat) : Nat :=
  let shift := (num / den).log2 - 52
  shift * twoPow 52 + divNearest num (den * twoPow shift)

def infinityWord : Nat := 2047 * twoPow 52

/-- The number nearest to `num / den` with the given sign, unless it is too large. -/
def ofRatio? (negative : Bool) (num den : Nat) : Option Binary64 :=
  let m := roundMagnitude (num * one) den
  if m < infinityWord then
    some ⟨UInt64.ofNat (m + if negative then twoPow 63 else 0)⟩
  else none

def hex (x : Binary64) : String :=
  let ds := Nat.toDigits 16 x.word
  String.ofList (List.replicate (16 - ds.length) '0' ++ ds)

theorem significand_lt (x : Binary64) : x.significand < twoPow 53 := by
  have h : x.fraction < twoPow 52 := Nat.mod_lt _ (twoPow_pos 52)
  rw [twoPow_succ]
  unfold significand
  split <;> omega

end Binary64

end EnumCover
