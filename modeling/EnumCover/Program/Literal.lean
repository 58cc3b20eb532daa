import EnumCover.Program.Value

namespace EnumCover

inductive LiteralKind where
  | int
  | float
  | imag
  | char
  | string
  deriving DecidableEq, Repr

namespace LiteralKind

def text : LiteralKind → String
  | int => "int"
  | float => "float"
  | imag => "imag"
  | char => "char"
  | string => "string"

def all : List LiteralKind := [int, float, imag, char, string]

def ofText? (s : String) : Option LiteralKind := all.find? (·.text == s)

end LiteralKind

namespace Literal

def dropSeparators (cs : List Char) : List Char := cs.filter (· != '_')

/-- The radix of an integer literal without separators, and its digits. A zero in front of more
digits means octal. -/
def radixAndDigits : List Char → Nat × List Char
  | '0' :: c :: cs =>
    if c = 'x' ∨ c = 'X' then (16, cs)
    else if c = 'o' ∨ c = 'O' then (8, cs)
    else if c = 'b' ∨ c = 'B' then (2, cs)
    else (8, c :: cs)
  | cs => (10, cs)

/-- Digits after an optional sign, as a signed integer of 128 bits. -/
def signedInteger? (radix : Nat) (cs : List Char) : Option Int :=
  let (negative, ds) := Decimal.splitSign cs
  if ds = [] then none
  else (natOfDigits? radix ds).bind fun n =>
    let value : Int := if negative then -n else n
    if -(twoPow 127 : Int) ≤ value ∧ value < twoPow 127 then some value else none

def integer? (raw : String) : Option Int :=
  let (radix, ds) := radixAndDigits (dropSeparators raw.toList)
  signedInteger? radix ds

def isHexadecimal : List Char → Bool
  | '0' :: c :: _ => c == 'x' || c == 'X'
  | _ => false

def float? (raw : String) : Option Binary64 :=
  let cs := dropSeparators raw.toList
  if isHexadecimal cs then none else (Decimal.ofChars? cs).bind Decimal.toBinary64?

/-- What an escape stands for: one byte of a string, or a character. -/
inductive Escape where
  | byte (b : UInt8)
  | char (c : Char)
  deriving DecidableEq, Repr

def scalar? (n : Nat) : Option Char := if h : n.isValidChar then some (Char.ofNatAux n h) else none

def fixedDigits? (radix count : Nat) (cs : List Char) : Option (Nat × List Char) :=
  let ds := cs.take count
  if ds.length = count then (natOfDigits? radix ds).map fun n => (n, cs.drop count) else none

def byte? (n : Nat) : Option Escape := if n < 256 then some (.byte (UInt8.ofNat n)) else none

def simpleEscape? (quote : Char) (c : Char) : Option Char :=
  match c with
  | 'a' => some '\x07'
  | 'b' => some '\x08'
  | 'f' => some '\x0c'
  | 'n' => some '\n'
  | 'r' => some '\r'
  | 't' => some '\t'
  | 'v' => some '\x0b'
  | '\\' => some '\\'
  | c => if c = quote then some c else none

def escape? (quote : Char) : List Char → Option (Escape × List Char)
  | [] => none
  | c :: cs =>
    match simpleEscape? quote c with
    | some e => some (.char e, cs)
    | none =>
      let numbered (radix count : Nat) (cs : List Char) (f : Nat → Option Escape) :=
        (fixedDigits? radix count cs).bind fun (n, rest) => (f n).map (·, rest)
      match c with
      | 'x' => numbered 16 2 cs byte?
      | 'u' => numbered 16 4 cs fun n => (scalar? n).map .char
      | 'U' => numbered 16 8 cs fun n => (scalar? n).map .char
      | _ => numbered 8 3 (c :: cs) byte?

def unquoted? (quote : Char) : List Char → Option (List Char)
  | c :: cs => if c = quote ∧ cs.getLast? = some quote then some cs.dropLast else none
  | [] => none

/-- A character literal holds exactly one character or escape. A byte stands for the character of
that number. -/
def character? (raw : String) : Option Char :=
  match unquoted? '\x27' raw.toList with
  | some ('\\' :: cs) =>
    match escape? '\x27' cs with
    | some (.char c, []) => some c
    | some (.byte b, []) => some (Char.ofNat b.toNat)
    | _ => none
  | some [c] => some c
  | _ => none

def Escape.bytes : Escape → List UInt8
  | byte b => [b]
  | char c => String.utf8EncodeChar c

/-- The bytes of the text between double quotes. Each step takes one unit of fuel and at least one
character. -/
def stringBytes? : Nat → List Char → Option (List UInt8)
  | _, [] => some []
  | 0, _ :: _ => none
  | fuel + 1, '\\' :: cs =>
    (escape? '"' cs).bind fun (e, rest) => (stringBytes? fuel rest).map (e.bytes ++ ·)
  | fuel + 1, c :: cs => (stringBytes? fuel cs).map (String.utf8EncodeChar c ++ ·)

def decodeBytes? (bytes : List UInt8) : Option String := String.fromUTF8? bytes.toByteArray

/-- Between back quotes carriage returns are dropped and nothing is an escape; between double
quotes escapes denote bytes or characters, and all bytes together must encode a text. -/
def string? (raw : String) : Option String :=
  match unquoted? '\x60' raw.toList with
  | some inner => some (String.ofList (inner.filter (· != '\r')))
  | none =>
    (unquoted? '"' raw.toList).bind fun inner =>
      (stringBytes? inner.length inner).bind decodeBytes?

end Literal

def Literal.value? (kind : LiteralKind) (raw : String) : Option Value :=
  match kind with
  | .int => (Literal.integer? raw).map .int
  | .float => (Literal.float? raw).map Value.ofFloat
  | .char => (Literal.character? raw).map fun c => .int c.toNat
  | .string => (Literal.string? raw).map .str
  | .imag => none

end EnumCover
