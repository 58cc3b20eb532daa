import EnumCover.Number.Shortest

namespace EnumCover

namespace DigitString

def positional (s : DigitString) : List Char :=
  match s.exponent with
  | .ofNat k => s.digits ++ List.replicate k '0'
  | .negSucc k =>
    let places := k + 1
    if places < s.digits.length then
      s.digits.take (s.digits.length - places) ++ '.' :: s.digits.drop (s.digits.length - places)
    else '0' :: '.' :: List.replicate (places - s.digits.length) '0' ++ s.digits

def exponentChars (e : Int) : List Char :=
  if 0 ≤ e then '+' :: integerChars e else integerChars e

def scientific (s : DigitString) : List Char :=
  let e := s.exponent + s.digits.length - 1
  let mantissa := match s.digits with
    | d :: rest@(_ :: _) => d :: '.' :: rest
    | ds => ds
  mantissa ++ 'e' :: exponentChars e

end DigitString

namespace Binary64

def signed (x : Binary64) (magnitude : List Char) : String :=
  String.ofList (if x.negative then '-' :: magnitude else magnitude)

/-- The fewest digits and no exponent; an integer has no point. -/
def plainText (x : Binary64) : String := x.signed (x.shortest .up).positional

/-- The fewest digits; positional while the first digit stands at most sixteen places before the
point and at most five after it, and an integer then ends in `.0`. -/
def jsonText (x : Binary64) : String :=
  let s := x.shortest .even
  let place := s.exponent + s.digits.length
  x.signed <|
    if -5 < place ∧ place ≤ 16 then
      if 0 ≤ s.exponent then s.positional ++ ['.', '0'] else s.positional
    else s.scientific

end Binary64

end EnumCover
