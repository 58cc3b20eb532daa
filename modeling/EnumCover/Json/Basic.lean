import EnumCover.Number.Layout

namespace EnumCover

/-- A JSON value. Whole numbers are kept apart from floating-point ones, and the members of an
object keep their order. -/
inductive Json where
  | null
  | bool (b : Bool)
  | int (n : Int)
  | float (x : Binary64) (finite : x.isFinite = true)
  | str (s : String)
  | arr (items : List Json)
  | obj (members : List (String × Json))

namespace Json

def ofFloat? (x : Binary64) : Option Json := if h : x.isFinite then some (float x h) else none

theorem ofFloat?_of_isFinite {x : Binary64} (h : x.isFinite = true) :
    ofFloat? x = some (float x h) :=
  dif_pos h

def unicodeEscape (c : Char) : List Char :=
  let ds := Nat.toDigits 16 c.toNat
  ['\\', 'u'] ++ List.replicate (4 - ds.length) '0' ++ ds

/-- One character inside a string. Only quotes, backslashes and characters below the space are
escaped. -/
def escapeChar (c : Char) : List Char :=
  if c = '"' then ['\\', '"']
  else if c = '\\' then ['\\', '\\']
  else if c = '\n' then ['\\', 'n']
  else if c = '\r' then ['\\', 'r']
  else if c = '\t' then ['\\', 't']
  else if c.toNat = 0x08 then ['\\', 'b']
  else if c.toNat = 0x0C then ['\\', 'f']
  else if c.toNat < 0x20 then unicodeEscape c
  else [c]

def stringChars (s : String) : List Char := '"' :: s.toList.flatMap escapeChar ++ ['"']

mutual
def chars : Json → List Char
  | null => ['n', 'u', 'l', 'l']
  | bool true => ['t', 'r', 'u', 'e']
  | bool false => ['f', 'a', 'l', 's', 'e']
  | int n => integerChars n
  | float x _ => x.jsonText.toList
  | str s => stringChars s
  | arr items => '[' :: itemsChars items ++ [']']
  | obj members => '{' :: membersChars members ++ ['}']

def itemsChars : List Json → List Char
  | [] => []
  | [x] => x.chars
  | x :: xs => x.chars ++ ',' :: itemsChars xs

def membersChars : List (String × Json) → List Char
  | [] => []
  | [(k, x)] => stringChars k ++ ':' :: x.chars
  | (k, x) :: xs => stringChars k ++ ':' :: x.chars ++ ',' :: membersChars xs
end

def compact (j : Json) : String := String.ofList j.chars

def newline (depth : Nat) : List Char := '\n' :: List.replicate (2 * depth) ' '

mutual
/-- The text with one item or member a line; empty containers stay on their line. -/
def prettyChars (depth : Nat) : Json → List Char
  | arr [] => ['[', ']']
  | arr items => '[' :: prettyItems (depth + 1) items ++ newline depth ++ [']']
  | obj [] => ['{', '}']
  | obj members => '{' :: prettyMembers (depth + 1) members ++ newline depth ++ ['}']
  | null => ['n', 'u', 'l', 'l']
  | bool true => ['t', 'r', 'u', 'e']
  | bool false => ['f', 'a', 'l', 's', 'e']
  | int n => integerChars n
  | float x _ => x.jsonText.toList
  | str s => stringChars s

def prettyItems (depth : Nat) : List Json → List Char
  | [] => []
  | [x] => newline depth ++ prettyChars depth x
  | x :: xs => newline depth ++ prettyChars depth x ++ ',' :: prettyItems depth xs

def prettyMembers (depth : Nat) : List (String × Json) → List Char
  | [] => []
  | [(k, x)] => newline depth ++ stringChars k ++ ':' :: ' ' :: prettyChars depth x
  | (k, x) :: xs =>
    newline depth ++ stringChars k ++ ':' :: ' ' :: prettyChars depth x ++
      ',' :: prettyMembers depth xs
end

def pretty (j : Json) : String := String.ofList (prettyChars 0 j)

def insertMember (key : String) (value : Json) : List (String × Json) → List (String × Json)
  | [] => [(key, value)]
  | (k, v) :: rest =>
    if key < k then (key, value) :: (k, v) :: rest
    else if key = k then (key, value) :: rest
    else (k, v) :: insertMember key value rest

/-- Members in the order of their keys, where the last member of a key counts. -/
def sortMembers (members : List (String × Json)) : List (String × Json) :=
  members.foldl (fun sorted m => insertMember m.1 m.2 sorted) []

end Json

end EnumCover
