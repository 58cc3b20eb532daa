import EnumCover.Json.Basic
import EnumCover.Json.Reading

namespace EnumCover

structure Numeral where
  negative : Bool
  whole : List Char
  part : List Char
  exponent : Int
  /-- Neither a point nor an exponent is written. -/
  integral : Bool
  deriving DecidableEq, Repr

namespace Numeral

/-- The nearest floating-point number, if there is a finite one. That long numerals are read as the
nearest one is an assumption about the library that reads JSON. Unless it is told to be exact it
does its best only, and may then be one unit in the last place off, as it is for `2 ^ 98`. -/
def toFloat? (n : Numeral) : Option Json :=
  let digits := decimalValue (n.whole ++ n.part)
  (Decimal.mk n.negative digits (n.exponent - n.part.length)).toBinary64?.bind Json.ofFloat?

/-- Integers of 64 bits, signed or not, are kept exactly; every other numeral, minus zero among
them, is read as the nearest floating-point number. -/
def toJson? (n : Numeral) : Option Json :=
  let m := decimalValue n.whole
  if n.integral && !n.negative && m < twoPow 64 then some (.int m)
  else if n.integral && n.negative && 0 < m && m ≤ twoPow 63 then some (.int (-m))
  else n.toFloat?

end Numeral

/-- Where a text stops being JSON: the line on which the fault shows to one who reads the value, and
to one who only passes over it. A reader also takes in the character that does not fit, and notices
half of a surrogate pair at once. -/
structure Cut where
  read : Nat
  passed : Nat
  deriving DecidableEq, Repr

namespace Cut

def both (line : Nat) : Cut := ⟨line, line⟩

def last (c : Cut) : Nat := max c.read c.passed

end Cut

inductive Stop where
  | closed (line : Nat)
  | cut (c : Cut)
  deriving DecidableEq, Repr

/-- The key of an object's member: its text, unless half of a surrogate pair stands in it, and the
line on which a fault of the key shows. -/
structure Key where
  text : Option String
  line : Nat
  deriving DecidableEq, Repr

namespace Key

/-- A key that has no text is wrong on its own line. Any other one can only be out of place, which
shows where the colon is expected. -/
def ofText (text : Option String) (line colon : Nat) : Key :=
  ⟨text, if text.isSome then colon else line⟩

end Key

inductive Node where
  | cut (line : Nat) (c : Cut)
  | null (line : Nat)
  | bool (line : Nat) (b : Bool)
  | number (line : Nat) (n : Numeral)
  | string (line : Nat) (s : Option String)
  | array (line : Nat) (items : List Node) (stop : Stop)
  | object (line : Nat) (members : List (Key × Node)) (stop : Stop)

structure Document where
  root : Node
  stop : Stop

namespace Stop

/-- The line of the closing bracket. A container that is cut has none, and whoever reads it fails no
later than on this line. -/
def line : Stop → Nat
  | closed l => l
  | cut c => c.last

def check : Stop → Reading Unit
  | closed _ => .value ()
  | cut c => .fault c.last

def pass : Stop → Reading Unit
  | closed _ => .value ()
  | cut c => .fault c.passed

end Stop

namespace Node

variable {α : Type}

def line : Node → Nat
  | cut l _ | null l | bool l _ | number l _ | string l _ | array l _ _ | object l _ _ => l

def refuse : Node → Reading α
  | cut _ c => .fault c.read
  | n => .fault n.line

/-- Passes over a value that nobody reads. It only has to be JSON. -/
def skip : Node → Reading Unit
  | cut _ c => .fault c.passed
  | array _ _ stop | object _ _ stop => stop.pass
  | _ => .value ()

def maxNesting : Nat := 127

mutual
/-- The value of a node, when every string and numeral in it has one and containers nest at most
`depth` deep. -/
def toJson (depth : Nat) : Node → Reading Json
  | cut _ c => .fault c.read
  | null _ => .value .null
  | bool _ b => .value (.bool b)
  | number l n => match n.toJson? with
    | some j => .value j
    | none => .fault l
  | string l s => match s with
    | some s => .value (.str s)
    | none => .fault l
  | array l items stop => match depth with
    | 0 => .fault l
    | depth + 1 => Json.arr <$> itemsToJson depth items <* stop.check
  | object l members stop => match depth with
    | 0 => .fault l
    | depth + 1 => (Json.obj ∘ Json.sortMembers) <$> membersToJson depth members <* stop.check

def itemsToJson (depth : Nat) : List Node → Reading (List Json)
  | [] => .value []
  | x :: xs => List.cons <$> toJson depth x <*> itemsToJson depth xs

def membersToJson (depth : Nat) : List (Key × Node) → Reading (List (String × Json))
  | [] => .value []
  | (k, x) :: xs =>
    let key : Reading String := match k.text with
      | some s => .value s
      | none => .fault k.line
    (fun s j rest => (s, j) :: rest) <$> key <*> toJson depth x <*> membersToJson depth xs
end

end Node

namespace Document

def read {α : Type} (f : Node → Reading α) (d : Document) : Reading α := f d.root <* d.stop.check

end Document

end EnumCover
