import EnumCover.Number.Decimal
import EnumCover.Toml.Basic

namespace EnumCover.Toml

def isPlain (c : Char) : Bool := c == '\t' || (0x20 ≤ c.toNat && c.toNat ≠ 0x7F)

def isBlank (c : Char) : Bool := c == ' ' || c == '\t'

def afterNewline? : List Char → Option (List Char)
  | '\n' :: cs => some cs
  | '\r' :: '\n' :: cs => some cs
  | _ => none

def skipSpace : List Char → List Char
  | ' ' :: cs | '\t' :: cs | '\n' :: cs | '\r' :: '\n' :: cs => skipSpace cs
  | cs => cs

def codePoint? (count : Nat) (cs : List Char) : Option (Char × List Char) :=
  let ds := cs.take count
  if ds.length = count then
    (natOfDigits? 16 ds).bind fun n =>
      if n.isValidChar then some (Char.ofNat n, cs.drop count) else none
  else none

def escape? : List Char → Option (Char × List Char)
  | 'b' :: cs => some ('\x08', cs)
  | 't' :: cs => some ('\t', cs)
  | 'n' :: cs => some ('\n', cs)
  | 'f' :: cs => some ('\x0c', cs)
  | 'r' :: cs => some ('\r', cs)
  | '"' :: cs => some ('"', cs)
  | '\\' :: cs => some ('\\', cs)
  | 'u' :: cs => codePoint? 4 cs
  | 'U' :: cs => codePoint? 8 cs
  | _ => none

def basicTail : Nat → List Char → Option (List Char × List Char)
  | 0, _ | _, [] => none
  | _ + 1, '"' :: cs => some ([], cs)
  | fuel + 1, '\\' :: cs => do
    let (c, cs) ← escape? cs
    let (s, rest) ← basicTail fuel cs
    return (c :: s, rest)
  | fuel + 1, c :: cs =>
    if isPlain c then (basicTail fuel cs).map fun (s, rest) => (c :: s, rest) else none

def literalTail : List Char → Option (List Char × List Char)
  | [] => none
  | c :: cs =>
    if c = '\x27' then some ([], cs)
    else if isPlain c then (literalTail cs).map fun (s, rest) => (c :: s, rest)
    else none

/-- The rest of a string in three quotes of a kind. Up to two quotes may stand anywhere in it,
also before the closing ones; a line break counts as one character. In double quotes a backslash
starts an escape, and before a line break it removes all space up to the next character. -/
def longTail (quote : Char) : Nat → List Char → Option (List Char × List Char)
  | 0, _ | _, [] => none
  | fuel + 1, c :: cs =>
    if c = quote then
      let run := (c :: cs).takeWhile (· == quote)
      let rest := (c :: cs).dropWhile (· == quote)
      if run.length < 3 then (longTail quote fuel rest).map fun (s, rest) => (run ++ s, rest)
      else if run.length ≤ 5 then some (run.drop 3, rest)
      else none
    else if c = '\\' ∧ quote = '"' then
      match afterNewline? (cs.dropWhile isBlank) with
      | some rest => longTail quote fuel (skipSpace rest)
      | none => do
        let (e, rest) ← escape? cs
        let (s, rest) ← longTail quote fuel rest
        return (e :: s, rest)
    else match afterNewline? (c :: cs) with
      | some rest => (longTail quote fuel rest).map fun (s, rest) => ('\n' :: s, rest)
      | none =>
        if isPlain c then (longTail quote fuel cs).map fun (s, rest) => (c :: s, rest) else none

/-- A line break right after the opening quotes does not count. -/
def longString (quote : Char) (cs : List Char) : Option (List Char × List Char) :=
  let cs := (afterNewline? cs).getD cs
  longTail quote (cs.length + 1) cs

def string? (cs : List Char) : Option (List Char × List Char) :=
  match cs with
  | '"' :: '"' :: '"' :: cs => longString '"' cs
  | '\x27' :: '\x27' :: '\x27' :: cs => longString '\x27' cs
  | '"' :: cs => basicTail (cs.length + 1) cs
  | '\x27' :: cs => literalTail cs
  | _ => none

def digitGroups? (radix : Nat) (cs : List Char) : Option (List Char) :=
  let groups := cs.splitOn '_'
  if groups.all fun g => g ≠ [] ∧ g.all fun c => (digit? radix c).isSome then some groups.flatten
  else none

def hasLeadingZero : List Char → Bool
  | '0' :: _ :: _ => true
  | _ => false

def plainDigits? (cs : List Char) : Option (List Char) :=
  if hasLeadingZero cs then none else digitGroups? 10 cs

/-- An integer of 64 bits. Only decimal ones have a sign. -/
def isInteger (cs : List Char) : Bool :=
  let bounded (radix : Nat) (ds : Option (List Char)) (limit : Nat) : Bool :=
    ((ds.bind (natOfDigits? radix)).map fun n => decide (n ≤ limit)).getD false
  match cs with
  | '0' :: 'x' :: ds => bounded 16 (digitGroups? 16 ds) (twoPow 63 - 1)
  | '0' :: 'o' :: ds => bounded 8 (digitGroups? 8 ds) (twoPow 63 - 1)
  | '0' :: 'b' :: ds => bounded 2 (digitGroups? 2 ds) (twoPow 63 - 1)
  | cs =>
    let (negative, ds) := Decimal.splitSign cs
    bounded 10 (plainDigits? ds) (if negative then twoPow 63 else twoPow 63 - 1)

/-- A number with a fraction or an exponent, or one of the special values. Only a negative one may
be too large for a finite number. -/
def isFloat (cs : List Char) : Bool :=
  let (negative, ds) := Decimal.splitSign cs
  if ds = ['i', 'n', 'f'] ∨ ds = ['n', 'a', 'n'] then true
  else
    let isExponent (c : Char) : Bool := c == 'e' || c == 'E'
    let mantissa := ds.takeWhile (!isExponent ·)
    let exponent := ds.drop mantissa.length
    let whole := mantissa.takeWhile (· != '.')
    let fraction := mantissa.drop whole.length
    let exponentOk := match exponent with
      | [] => true
      | _ :: es => (digitGroups? 10 (Decimal.splitSign es).2).isSome
    let fractionOk := match fraction with
      | [] => !exponent.isEmpty
      | _ :: fs => (digitGroups? 10 fs).isSome
    let isFinite := ((Decimal.ofChars? (ds.filter (· != '_'))).bind Decimal.toBinary64?).isSome
    (plainDigits? whole).isSome && fractionOk && exponentOk && (negative || isFinite)

def twoDigits (low high : Nat) (a b : Char) : Bool :=
  match natOfDigits? 10 [a, b] with
  | some n => low ≤ n && n ≤ high
  | none => false

def daysIn (year month : Nat) : Nat :=
  if month = 2 then if year % 4 = 0 ∧ (year % 100 ≠ 0 ∨ year % 400 = 0) then 29 else 28
  else if month = 4 ∨ month = 6 ∨ month = 9 ∨ month = 11 then 30
  else 31

def isDate : List Char → Bool
  | [y1, y2, y3, y4, '-', m1, m2, '-', d1, d2] =>
    match natOfDigits? 10 [y1, y2, y3, y4], natOfDigits? 10 [m1, m2] with
    | some year, some month =>
      1 ≤ month && month ≤ 12 && twoDigits 1 (daysIn year month) d1 d2
    | _, _ => false
  | _ => false

def isOffset (cs : List Char) : Bool :=
  match cs with
  | [] | ['Z'] | ['z'] => true
  | [sign, h1, h2, ':', m1, m2] =>
    (sign == '+' || sign == '-') && twoDigits 0 23 h1 h2 && twoDigits 0 59 m1 m2
  | _ => false

/-- A time of day, with an offset only where `offset` holds. -/
def isTime (offset : Bool) : List Char → Bool
  | h1 :: h2 :: ':' :: m1 :: m2 :: ':' :: s1 :: s2 :: rest =>
    let afterFraction := match rest with
      | '.' :: cs => if (cs.takeWhile isDecimalDigit).isEmpty then none
        else some (cs.dropWhile isDecimalDigit)
      | cs => some cs
    twoDigits 0 23 h1 h2 && twoDigits 0 59 m1 m2 && twoDigits 0 60 s1 s2 &&
      match afterFraction with
      | some [] => true
      | some cs => offset && isOffset cs
      | none => false
  | _ => false

/-- A date, a time, or both with a letter between them. -/
def isMoment (cs : List Char) : Bool :=
  isDate cs || isTime false cs ||
    match cs.drop 10 with
    | t :: time => (t == 'T' || t == 't') && isDate (cs.take 10) && isTime true time
    | [] => false

def isScalarChar (c : Char) : Bool := c.isAlphanum || ['_', '+', '-', '.', ':'].contains c

/-- A value that is neither a string nor a container. Between a date and a time there may be one
space. -/
def scalar? (cs : List Char) : Option (Toml × List Char) :=
  let run := cs.takeWhile isScalarChar
  let rest := cs.dropWhile isScalarChar
  if run = ['t', 'r', 'u', 'e'] then some (.bool true, rest)
  else if run = ['f', 'a', 'l', 's', 'e'] then some (.bool false, rest)
  else if isInteger run || isFloat run then some (.number, rest)
  else if isDate run then
    match rest with
    | ' ' :: cs =>
      if isTime true (cs.takeWhile isScalarChar) then some (.moment, cs.dropWhile isScalarChar)
      else some (.moment, rest)
    | _ => some (.moment, rest)
  else if isMoment run then some (.moment, rest)
  else none

end EnumCover.Toml
