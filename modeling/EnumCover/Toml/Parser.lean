import EnumCover.Toml.Scalar

namespace EnumCover.Toml

def skipLines : Bool → List Char → Option (List Char)
  | _, [] => some []
  | false, c :: cs =>
    if isBlank c ∨ c = '\n' then skipLines false cs
    else if c = '#' then skipLines true cs
    else match c, cs with
      | '\r', '\n' :: rest => skipLines false rest
      | _, _ => some (c :: cs)
  | true, '\n' :: cs => skipLines false cs
  | true, '\r' :: '\n' :: cs => skipLines false cs
  | true, c :: cs => if isPlain c then skipLines true cs else none

def endOfLine? (cs : List Char) : Option (List Char) :=
  let rest := match cs.dropWhile isBlank with
    | '#' :: comment => comment.dropWhile isPlain
    | cs => cs
  match rest with
  | [] => some []
  | cs => afterNewline? cs

def isBareKeyChar (c : Char) : Bool := c.isAlphanum || c == '_' || c == '-'

def simpleKey? (cs : List Char) : Option (String × List Char) :=
  match cs with
  | '"' :: rest => (basicTail (rest.length + 1) rest).map fun (s, rest) => (String.ofList s, rest)
  | '\x27' :: rest => (literalTail rest).map fun (s, rest) => (String.ofList s, rest)
  | cs =>
    match cs.takeWhile isBareKeyChar with
    | [] => none
    | word => some (String.ofList word, cs.dropWhile isBareKeyChar)

/-- How many arrays and tables in braces may enclose one another, and how many parts a key may
have. -/
def maxNesting : Nat := 79

def dottedKey? : Nat → List Char → Option (List String × List Char)
  | 0, _ => none
  | parts + 1, cs => do
    let (k, rest) ← simpleKey? (cs.dropWhile isBlank)
    match rest.dropWhile isBlank with
    | '.' :: rest =>
      let (ks, rest) ← dottedKey? parts rest
      return (k :: ks, rest)
    | rest => return ([k], rest)

def key? (cs : List Char) : Option (List String × List Char) := dottedKey? maxNesting cs

mutual
/-- A value in which containers nest at most `depth` deep. Each step takes a unit of fuel. -/
def value? (depth : Nat) : Nat → List Char → Option (Toml × List Char)
  | 0, _ => none
  | fuel + 1, cs =>
    match cs, depth with
    | '[' :: _, 0 | '{' :: _, 0 => none
    | '[' :: cs, depth + 1 => (items? depth fuel cs).map fun (xs, rest) => (.array xs, rest)
    | '{' :: cs, depth + 1 =>
      match cs.dropWhile isBlank with
      | '}' :: rest => some (.table .inline [], rest)
      | cs => (entries? depth fuel [] cs).map fun (t, rest) => (.table .inline t, rest)
    | cs, _ =>
      if cs.head? = some '"' ∨ cs.head? = some '\x27' then
        (string? cs).map fun (s, rest) => (.str (String.ofList s), rest)
      else scalar? cs

/-- The items of an array, where lines may break and a comma may follow the last item. -/
def items? (depth : Nat) : Nat → List Char → Option (List Toml × List Char)
  | 0, _ => none
  | fuel + 1, cs =>
    match skipLines false cs with
    | none => none
    | some (']' :: rest) => some ([], rest)
    | some cs =>
      (value? depth fuel cs).bind fun (x, rest) =>
        match skipLines false rest with
        | some (']' :: rest) => some ([x], rest)
        | some (',' :: rest) => (items? depth fuel rest).map fun (xs, rest) => (x :: xs, rest)
        | _ => none

def entries? (depth : Nat) : Nat → Table → List Char → Option (Table × List Char)
  | 0, _, _ => none
  | fuel + 1, t, cs =>
    (key? cs).bind fun (path, rest) =>
      match rest with
      | '=' :: rest =>
        (value? depth fuel (rest.dropWhile isBlank)).bind fun (x, rest) =>
          (Table.assign x path t).bind fun t =>
            match rest.dropWhile isBlank with
            | '}' :: rest => some (t, rest)
            | ',' :: rest => entries? depth fuel t rest
            | _ => none
      | _ => none
end

def statement? (cs : List Char) : Option (Statement × List Char) := do
  let (s, rest) ← match cs with
    | '[' :: '[' :: cs => do
      match ← key? cs with
      | (path, ']' :: ']' :: rest) => pure (Statement.tablesHeader path, rest)
      | _ => none
    | '[' :: cs => do
      match ← key? cs with
      | (path, ']' :: rest) => pure (Statement.header path, rest)
      | _ => none
    | cs => do
      match ← key? cs with
      | (path, '=' :: rest) =>
        let (x, rest) ← value? maxNesting (2 * cs.length + 2) (rest.dropWhile isBlank)
        pure (Statement.assign path x, rest)
      | _ => none
  return (s, ← endOfLine? rest)

def statements? : Nat → List Char → Option (List Statement)
  | 0, _ => none
  | fuel + 1, cs =>
    match skipLines false cs with
    | none => none
    | some [] => some []
    | some cs => (statement? cs).bind fun (s, rest) => (statements? fuel rest).map (s :: ·)

def dropMark : List Char → List Char
  | c :: cs => if c.toNat = 0xFEFF then cs else c :: cs
  | [] => []

/-- The table that a text describes. A byte order mark may stand at its start. -/
def parse? (text : String) : Option Table :=
  let cs := dropMark text.toList
  (statements? (cs.length + 1) cs).bind (build [] [])

end EnumCover.Toml
