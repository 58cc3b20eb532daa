import EnumCover.Files.Tree
import EnumCover.Failure
import EnumCover.Toml.Parser

namespace EnumCover

structure OutputConfig where
  format : Option String
  deriving DecidableEq, Repr

structure Config where
  ignore : Option (List String)
  parallel : Option Bool
  memoize : Option Bool
  output : Option OutputConfig
  deriving DecidableEq, Repr

namespace Config

def fileName : String := "exhaustive.toml"

def lowerCase (s : String) : List Char := s.toList.map Char.toLower

def format? (c : Config) : Option String := c.output.bind (·.format)

/-- Whether the report is wanted as JSON. Case does not matter. -/
def asksForJson (c : Config) : Bool := c.format?.any fun f => lowerCase f == "json".toList

def isKnownFormat (f : String) : Bool :=
  lowerCase f == "plain".toList || lowerCase f == "json".toList

def asText? : Toml → Option String
  | .str s => some s
  | _ => none

def asFlag? : Toml → Option Bool
  | .bool b => some b
  | _ => none

def asTexts? : Toml → Option (List String)
  | .array items => items.mapM asText?
  | _ => none

/-- The value of a key, if it is there; it then has to be of the right kind. -/
def field? {α : Type} (t : Toml.Table) (key : String) (f : Toml → Option α) : Option (Option α) :=
  match t.lookup key with
  | none => some none
  | some x => (f x).map some

def onlyKeys (known : List String) (t : Toml.Table) : Bool := t.all fun (k, _) => known.contains k

/-- The output settings: a table with the format, or an array that starts with it. -/
def asOutput? : Toml → Option OutputConfig
  | .table _ t => if onlyKeys ["format"] t then (field? t "format" asText?).map .mk else none
  | .array (x :: _) => (asText? x).map fun f => ⟨some f⟩
  | _ => none

/-- The configuration in a table. Keys that nobody knows are refused. -/
def ofTable? (t : Toml.Table) : Option Config := do
  guard (onlyKeys ["ignore", "parallel", "memoize", "output"] t)
  let ignore ← field? t "ignore" asTexts?
  let parallel ← field? t "parallel" asFlag?
  let memoize ← field? t "memoize" asFlag?
  let output ← field? t "output" asOutput?
  return ⟨ignore, parallel, memoize, output⟩

def parse (text : String) : Except ConfigFault Config :=
  match (Toml.parse? text).bind ofTable? with
  | none => .error .malformed
  | some c => match c.format? with
    | none => .ok c
    | some f => if isKnownFormat f then .ok c else .error (.unknownFormat f)

end Config

namespace FileSystem

def readConfig (fs : FileSystem) (dir : String) : Except Failure (Option Config) :=
  let path := Path.join dir Config.fileName
  if fs.has path then
    match fs.readText path with
    | .error e => .error (.file path e)
    | .ok text => match Config.parse text with
      | .ok c => .ok (some c)
      | .error fault => .error (.config path fault)
  else .ok none

end FileSystem

end EnumCover
