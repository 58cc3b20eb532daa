import EnumCover.Number.Binary64
import EnumCover.Number.Digits

namespace EnumCover

/-- The number `± digits · 10 ^ exponent`. -/
structure Decimal where
  negative : Bool
  digits : Nat
  exponent : Int
  deriving DecidableEq, Repr

namespace Decimal

/-- Beyond this power of ten a numeral with one digit is out of range on either side. -/
def reach : Nat := 400

/-- The nearest floating-point number, or `none` if the numeral is too large for one. Exponents are
first brought within reach, which changes no answer. -/
def toBinary64? (d : Decimal) : Option Binary64 :=
  match d.exponent with
  | .ofNat e => Binary64.ofRatio? d.negative (d.digits * tenPow (min e reach)) 1
  | .negSucc e =>
    Binary64.ofRatio? d.negative d.digits
      (tenPow (min (e + 1) (reach + (decimalDigits d.digits).length)))

/-- Splits an optional sign off; `true` stands for the minus sign. -/
def splitSign : List Char → Bool × List Char
  | '-' :: cs => (true, cs)
  | '+' :: cs => (false, cs)
  | cs => (false, cs)

def exponentPart? : List Char → Option Int
  | [] => some 0
  | c :: cs =>
    if c = 'e' ∨ c = 'E' then
      let (negative, ds) := splitSign cs
      if ds ≠ [] ∧ ds.all isDecimalDigit then
        let n : Int := decimalValue ds
        some (if negative then -n else n)
      else none
    else none

/-- An optional sign, digits with an optional point among them and an optional exponent. At least
one digit stands before the exponent. -/
def ofChars? (cs : List Char) : Option Decimal :=
  let (negative, cs) := splitSign cs
  let whole := cs.takeWhile isDecimalDigit
  let rest := cs.dropWhile isDecimalDigit
  let (part, rest) := match rest with
    | '.' :: rest => (rest.takeWhile isDecimalDigit, rest.dropWhile isDecimalDigit)
    | rest => ([], rest)
  if whole ++ part = [] then none
  else (exponentPart? rest).map fun e => ⟨negative, decimalValue (whole ++ part), e - part.length⟩

end Decimal

end EnumCover
