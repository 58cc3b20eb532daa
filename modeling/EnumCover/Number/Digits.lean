namespace EnumCover

/-- The value of a digit of the given radix, in either case. -/
def digit? (radix : Nat) (c : Char) : Option Nat :=
  let value :=
    if '0' ≤ c ∧ c ≤ '9' then some (c.toNat - '0'.toNat)
    else if 'a' ≤ c ∧ c ≤ 'z' then some (c.toNat - 'a'.toNat + 10)
    else if 'A' ≤ c ∧ c ≤ 'Z' then some (c.toNat - 'A'.toNat + 10)
    else none
  value.filter (· < radix)

/-- The number that a list of digits spells after `start`. -/
def natOfDigitsFrom? (radix : Nat) : Nat → List Char → Option Nat
  | start, [] => some start
  | start, c :: cs => (digit? radix c).bind fun d => natOfDigitsFrom? radix (radix * start + d) cs

def natOfDigits? (radix : Nat) (cs : List Char) : Option Nat := natOfDigitsFrom? radix 0 cs

def isDecimalDigit (c : Char) : Bool := (digit? 10 c).isSome

def decimalValue (cs : List Char) : Nat := (natOfDigits? 10 cs).getD 0

def decimalDigits (n : Nat) : List Char := Nat.toDigits 10 n

def integerChars : Int → List Char
  | .ofNat n => decimalDigits n
  | .negSucc n => '-' :: decimalDigits (n + 1)

def integerText (n : Int) : String := String.ofList (integerChars n)

@[simp] theorem natOfDigits?_nil (radix : Nat) : natOfDigits? radix [] = some 0 := rfl

theorem natOfDigitsFrom?_append (radix start : Nat) (xs ys : List Char) :
    natOfDigitsFrom? radix start (xs ++ ys) =
      (natOfDigitsFrom? radix start xs).bind fun n => natOfDigitsFrom? radix n ys := by
  induction xs generalizing start with
  | nil => rfl
  | cons c cs ih =>
    simp only [List.cons_append, natOfDigitsFrom?]
    cases digit? radix c <;> simp [ih]

end EnumCover
