import EnumCover.Json.Node

namespace EnumCover

structure Cursor where
  line : Nat
  rest : List Char
  deriving DecidableEq, Repr

namespace Cursor

/-- The line after the next character, which is the one that does not fit. -/
def cutLine (c : Cursor) : Nat := if c.rest.head? = some '\n' then c.line + 1 else c.line

def skipBlanksFrom (line : Nat) : List Char → Cursor
  | [] => ⟨line, []⟩
  | c :: cs =>
    if c = '\n' then skipBlanksFrom (line + 1) cs
    else if c = ' ' ∨ c = '\t' ∨ c = '\r' then skipBlanksFrom line cs
    else ⟨line, c :: cs⟩

def skipBlanks (c : Cursor) : Cursor := skipBlanksFrom c.line c.rest

/-- Passes the given word, or tells the line on which the text departs from it. -/
def word (line : Nat) : List Char → List Char → Except Nat Cursor
  | [], rest => .ok ⟨line, rest⟩
  | w :: ws, rest =>
    match rest with
    | [] => .error line
    | c :: cs => if c = w then word line ws cs else .error (cutLine ⟨line, rest⟩)

end Cursor

/-- An element of a string: a character, or a code unit written as an escape with four digits. -/
inductive StringUnit where
  | char (c : Char)
  | code (n : Nat)
  deriving DecidableEq, Repr

namespace StringUnit

def escape? : Char → Option Char
  | '"' => some '"'
  | '\\' => some '\\'
  | '/' => some '/'
  | 'b' => some '\x08'
  | 'f' => some '\x0c'
  | 'n' => some '\n'
  | 'r' => some '\r'
  | 't' => some '\t'
  | _ => none

def isLead (n : Nat) : Bool := 0xD800 ≤ n && n ≤ 0xDBFF

def isTrail (n : Nat) : Bool := 0xDC00 ≤ n && n ≤ 0xDFFF

/-- The characters of a string; code units of a surrogate pair make one character, and half of a
pair makes none. -/
def chars? : List StringUnit → Option (List Char)
  | [] => some []
  | char c :: rest => (chars? rest).map (c :: ·)
  | code n :: rest =>
    if isLead n then
      match rest with
      | code m :: rest =>
        if isTrail m then
          (chars? rest).map (Char.ofNat (0x10000 + (n - 0xD800) * 0x400 + (m - 0xDC00)) :: ·)
        else none
      | _ => none
    else if isTrail n then none
    else (chars? rest).map (Char.ofNat n :: ·)

def text? (units : List StringUnit) : Option String := (chars? units).map String.ofList

/-- Whether half of a surrogate pair stands among units that may go on. The first half at the end
may still be followed by the second. -/
def isBroken : List StringUnit → Bool
  | [] => false
  | char _ :: rest => isBroken rest
  | code n :: rest =>
    if isLead n then
      match rest with
      | [] => false
      | char _ :: _ => true
      | code m :: rest => !isTrail m || isBroken rest
    else isTrail n || isBroken rest

end StringUnit

namespace Json

def newlinesWithin : Nat → List Char → Nat
  | 0, _ | _, [] => 0
  | n + 1, c :: cs => (if c = '\n' then 1 else 0) + newlinesWithin (n + 1 - c.utf8Size) cs

/-- The units of a string after its opening quote, and what follows its closing quote or where it
is cut. An escape of a code unit takes in four bytes, whatever they are. -/
def scanString (line : Nat) : List Char → List StringUnit × Except Cut (List Char)
  | [] => ([], .error (.both line))
  | '"' :: cs => ([], .ok cs)
  | '\\' :: 'u' :: a :: b :: c :: d :: cs =>
    match natOfDigits? 16 [a, b, c, d] with
    | some n => let (us, rest) := scanString line cs; (.code n :: us, rest)
    | none => ([], .error (.both (line + newlinesWithin 4 [a, b, c, d])))
  | '\\' :: c :: cs =>
    if c = 'u' then ([], .error (.both (line + newlinesWithin 4 cs)))
    else match StringUnit.escape? c with
      | some e => let (us, rest) := scanString line cs; (.char e :: us, rest)
      | none => ([], .error (.both (Cursor.cutLine ⟨line, c :: cs⟩)))
  | c :: cs =>
    if c = '\\' then ([], .error (.both line))
    else if c.toNat < 0x20 then ([], .error ⟨Cursor.cutLine ⟨line, c :: cs⟩, line⟩)
    else let (us, rest) := scanString line cs; (.char c :: us, rest)

def stringTail (line : Nat) (cs : List Char) : Except Cut (List StringUnit × List Char) :=
  match scanString line cs with
  | (us, .ok rest) => .ok (us, rest)
  | (us, .error c) => .error (if StringUnit.isBroken us then { c with read := line } else c)

def digitRun (line : Nat) (cs : List Char) : Except Nat (List Char × List Char) :=
  match cs.takeWhile isDecimalDigit with
  | [] => .error (Cursor.cutLine ⟨line, cs⟩)
  | ds => .ok (ds, cs.dropWhile isDecimalDigit)

def wholePart (line : Nat) : List Char → Except Nat (List Char × List Char)
  | '0' :: cs =>
    if (cs.head?.map isDecimalDigit).getD false then .error line else .ok (['0'], cs)
  | cs => digitRun line cs

def fractionPart (line : Nat) : List Char → Except Nat (List Char × List Char)
  | '.' :: cs => digitRun line cs
  | cs => .ok ([], cs)

def exponentPart (line : Nat) : List Char → Except Nat (Option Int × List Char)
  | c :: cs =>
    if c = 'e' ∨ c = 'E' then
      let (negative, cs) := Decimal.splitSign cs
      (digitRun line cs).map fun (ds, rest) =>
        let n : Int := decimalValue ds
        (some (if negative then -n else n), rest)
    else .ok (none, c :: cs)
  | [] => .ok (none, [])

def numeral (line : Nat) (cs : List Char) : Except Nat (Numeral × List Char) := do
  let (negative, cs) := match cs with
    | '-' :: cs => (true, cs)
    | cs => (false, cs)
  let (whole, afterWhole) ← wholePart line cs
  let (part, afterPart) ← fractionPart line afterWhole
  let (exponent, rest) ← exponentPart line afterPart
  return (⟨negative, whole, part, exponent.getD 0, part.isEmpty && exponent.isNone⟩, rest)

structure Parsed (α : Type) where
  value : α
  next : Except Cut Cursor

namespace Parsed

def token {α : Type} (line : Nat) (r : Except Cut (α × List Char)) (f : α → Node) : Parsed Node :=
  match r with
  | .ok (a, rest) => ⟨f a, .ok ⟨line, rest⟩⟩
  | .error c => ⟨.cut line c, .error c⟩

def keyword (line : Nat) (r : Except Nat Cursor) (node : Node) : Parsed Node :=
  match r with
  | .ok c => ⟨node, .ok c⟩
  | .error l => ⟨.cut line (.both l), .error (.both l)⟩

def nothing (line : Nat) : Parsed Node := ⟨.cut line (.both line), .error (.both line)⟩

end Parsed

def stopOf (closing : Nat) : Except Cut Cursor → Stop
  | .ok _ => .closed closing
  | .error c => .cut c

structure Contents (α : Type) where
  contents : List α
  closing : Nat
  next : Except Cut Cursor

namespace Contents

def cutAt {α : Type} (contents : List α) (line : Nat) : Contents α :=
  ⟨contents, line, .error (.both line)⟩

end Contents

mutual
/-- One value, blanks before it included. Each step takes one unit of fuel. -/
def value (fuel : Nat) (c : Cursor) : Parsed Node :=
  match fuel with
  | 0 => .nothing c.line
  | fuel + 1 =>
    let ⟨line, cs⟩ := c.skipBlanks
    match cs with
    | 'n' :: _ => .keyword line (Cursor.word line ['n', 'u', 'l', 'l'] cs) (.null line)
    | 't' :: _ => .keyword line (Cursor.word line ['t', 'r', 'u', 'e'] cs) (.bool line true)
    | 'f' :: _ =>
      .keyword line (Cursor.word line ['f', 'a', 'l', 's', 'e'] cs) (.bool line false)
    | '"' :: cs => .token line (stringTail line cs) (fun us => .string line (StringUnit.text? us))
    | '[' :: cs =>
      let r := items fuel ⟨line, cs⟩
      ⟨.array line r.contents (stopOf r.closing r.next), r.next⟩
    | '{' :: cs =>
      let r := members fuel ⟨line, cs⟩
      ⟨.object line r.contents (stopOf r.closing r.next), r.next⟩
    | d :: _ =>
      if d = '-' ∨ isDecimalDigit d then
        .token line ((numeral line cs).mapError .both) (.number line)
      else .nothing line
    | [] => .nothing line

def items (fuel : Nat) (c : Cursor) : Contents Node :=
  match fuel with
  | 0 => .cutAt [] c.line
  | fuel + 1 =>
    match c.skipBlanks with
    | ⟨line, ']' :: cs⟩ => ⟨[], line, .ok ⟨line, cs⟩⟩
    | c => moreItems fuel c

def moreItems (fuel : Nat) (c : Cursor) : Contents Node :=
  match fuel with
  | 0 => .cutAt [] c.line
  | fuel + 1 =>
    let r := value fuel c
    match r.next with
    | .error e => ⟨[r.value], e.last, .error e⟩
    | .ok c =>
      match c.skipBlanks with
      | ⟨line, ']' :: cs⟩ => ⟨[r.value], line, .ok ⟨line, cs⟩⟩
      | ⟨line, ',' :: cs⟩ =>
        let rs := moreItems fuel ⟨line, cs⟩
        ⟨r.value :: rs.contents, rs.closing, rs.next⟩
      | ⟨line, _⟩ => .cutAt [r.value] line

def members (fuel : Nat) (c : Cursor) : Contents (Key × Node) :=
  match fuel with
  | 0 => .cutAt [] c.line
  | fuel + 1 =>
    match c.skipBlanks with
    | ⟨line, '}' :: cs⟩ => ⟨[], line, .ok ⟨line, cs⟩⟩
    | c => moreMembers fuel c

def moreMembers (fuel : Nat) (c : Cursor) : Contents (Key × Node) :=
  match fuel with
  | 0 => .cutAt [] c.line
  | fuel + 1 =>
    match c.skipBlanks with
    | ⟨line, '"' :: cs⟩ =>
      match stringTail line cs with
      | .error e => ⟨[(⟨none, e.read⟩, .cut line e)], e.last, .error e⟩
      | .ok (us, cs) =>
        match Cursor.skipBlanks ⟨line, cs⟩ with
        | ⟨colon, ':' :: cs⟩ =>
          let r := value fuel ⟨colon, cs⟩
          let m := (Key.ofText (StringUnit.text? us) line colon, r.value)
          match r.next with
          | .error e => ⟨[m], e.last, .error e⟩
          | .ok c =>
            match c.skipBlanks with
            | ⟨line, '}' :: cs⟩ => ⟨[m], line, .ok ⟨line, cs⟩⟩
            | ⟨line, ',' :: cs⟩ =>
              let rs := moreMembers fuel ⟨line, cs⟩
              ⟨m :: rs.contents, rs.closing, rs.next⟩
            | ⟨line, _⟩ => .cutAt [m] line
        | ⟨l, _⟩ => .cutAt [(Key.ofText (StringUnit.text? us) line l, .cut l (.both l))] l
    | ⟨line, _⟩ => .cutAt [] line
end

/-- Reads a text as one document. Of three steps in a row at least one passes a character, so three
units of fuel for each character are enough. -/
def parse (text : String) : Document :=
  let r := value (3 * text.toList.length + 3) ⟨1, text.toList⟩
  match r.next with
  | .error e => ⟨r.value, .cut e⟩
  | .ok c =>
    let ⟨line, rest⟩ := c.skipBlanks
    ⟨r.value, if rest.isEmpty then .closed line else .cut (.both line)⟩

end Json

end EnumCover
