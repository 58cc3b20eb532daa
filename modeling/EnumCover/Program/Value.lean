import EnumCover.Json.Basic
import EnumCover.Text.Quoted

namespace EnumCover

inductive Value where
  | bool (b : Bool)
  | int (n : Int)
  | float (x : Binary64)
  | str (s : String)
  deriving DecidableEq, Repr

namespace Value

/-- The floating-point number nearest to ten to the power 38. -/
def integerBound : Nat := 99999999999999997748809823456034029568

/-- The value of a floating-point number: an integer below the bound is an integer. -/
def ofFloat (x : Binary64) : Value :=
  match x.toInt? with
  | some n => if n.natAbs < integerBound then int n else float x
  | none => float x

/-- The constant that a JSON value stands for, if it is a truth value, a number or a string. -/
def ofJson? : Json → Option Value
  | .bool b => some (bool b)
  | .int n => some (int n)
  | .float x _ => some (ofFloat x)
  | .str s => some (str s)
  | .null | .arr _ | .obj _ => none

def refusal (j : Json) : String :=
  "expected a bool, number or string constant, got " ++ j.compact

/-- The JSON value of a constant. Integers beyond 64 bits are written as strings, and numbers that
are not finite as `null`. -/
def toJson : Value → Json
  | bool b => .bool b
  | int n => if -(twoPow 63 : Int) ≤ n ∧ n < twoPow 64 then .int n else .str (integerText n)
  | float x => (Json.ofFloat? x).getD .null
  | str s => .str s

def display : Value → String
  | bool b => if b then "true" else "false"
  | int n => integerText n
  | float x => x.plainText
  | str s => Text.quote s

end Value

end EnumCover
