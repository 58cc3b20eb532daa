namespace EnumCover

/-- A component of a path. A path that starts with a slash starts at the root. -/
inductive Component where
  | root
  | current
  | parent
  | name (s : String)
  deriving DecidableEq, Repr

namespace Component

def rank : Component → Nat
  | root => 0
  | current => 1
  | parent => 2
  | name _ => 3

/-- The root comes first, then the dots, then names by their characters. -/
def lt : Component → Component → Bool
  | name s, name t => s.toList < t.toList
  | a, b => a.rank < b.rank

end Component

namespace Path

def splitSlash : List Char → List (List Char)
  | [] => [[]]
  | c :: cs =>
    if c = '/' then [] :: splitSlash cs
    else match splitSlash cs with
      | [] => [[c]]
      | seg :: segs => (c :: seg) :: segs

def joinSlash : List (List Char) → List Char
  | [] => []
  | [seg] => seg
  | seg :: segs => seg ++ '/' :: joinSlash segs

def segment? (seg : List Char) : Option Component :=
  if seg = [] ∨ seg = ['.'] then none
  else if seg = ['.', '.'] then some .parent
  else some (.name (String.ofList seg))

def splitStart : List Char → Option Component × List Char
  | '/' :: cs => (some .root, cs)
  | ['.'] => (some .current, [])
  | '.' :: '/' :: cs => (some .current, '/' :: cs)
  | cs => (none, cs)

def components (path : String) : List Component :=
  let (start, rest) := splitStart path.toList
  start.toList ++ (splitSlash rest).filterMap segment?

/-- Component by component, where a path comes before its extensions. -/
def componentsLt : List Component → List Component → Bool
  | [], [] => false
  | [], _ :: _ => true
  | _ :: _, [] => false
  | a :: as, b :: bs => a.lt b || (a == b && componentsLt as bs)

def le (a b : String) : Bool := !componentsLt (components b) (components a)

def join (dir name : String) : String :=
  if dir.toList = [] then name
  else if dir.toList.getLast? = some '/' then dir ++ name
  else dir ++ "/" ++ name

def fileName? (path : String) : Option String :=
  match (components path).getLast? with
  | some (.name s) => some s
  | _ => none

def isAbsolute (path : String) : Bool := path.toList.head? == some '/'

/-- Segments without those at the end that stand for nothing. -/
def trimEnd (segs : List (List Char)) : List (List Char) :=
  (segs.reverse.dropWhile fun seg => (segment? seg).isNone).reverse

def trim (segs : List (List Char)) : List (List Char) :=
  trimEnd (segs.dropWhile fun seg => (segment? seg).isNone)

def dropComponents : List Component → List (List Char) → Option (List (List Char))
  | [], segs => some segs
  | _ :: _, [] => none
  | c :: cs, seg :: segs =>
    match segment? seg with
    | none => dropComponents (c :: cs) segs
    | some d => if c = d then dropComponents cs segs else none

def startChars : Option Component → List Char
  | some .root => ['/']
  | some .current => ['.']
  | _ => []

/-- The rest of a path after the components of a directory, in its own spelling. -/
def stripPrefixChars? (base path : List Char) : Option (List Char) :=
  let (start, rest) := splitStart path
  let segs := splitSlash rest
  match components (String.ofList base), start with
  | [], _ => some (startChars start ++ joinSlash (trimEnd segs))
  | cs, none => (dropComponents cs segs).map (joinSlash ∘ trim)
  | c :: cs, some d => if c = d then (dropComponents cs segs).map (joinSlash ∘ trim) else none

/-- A file name as seen from a directory, or unchanged if it does not lie below it. -/
def relativeTo (base file : String) : String :=
  match stripPrefixChars? base.toList file.toList with
  | some [] | none => file
  | some rest => String.ofList rest

end Path

end EnumCover
