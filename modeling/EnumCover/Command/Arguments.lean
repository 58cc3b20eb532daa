namespace EnumCover

structure Arguments where
  paths : List String := []
  json : Bool := false
  ignore : List String := []
  sequential : Bool := false
  memoize : Bool := false
  output : Option String := none
  baseDir : Option String := none
  deriving DecidableEq, Repr

/-- What a command line asks for: a run with some arguments, or a text about the command itself. -/
inductive Request where
  | run (a : Arguments)
  | help
  | version
  deriving DecidableEq, Repr

namespace Request

/-- The short options. Neither takes a value, so only the first of several in an argument counts. -/
def ofShort? : Char → Option Request
  | 'h' => some help
  | 'V' => some version
  | _ => none

def ofLong? : String → Option Request
  | "help" => some help
  | "version" => some version
  | _ => none

end Request

namespace Arguments

inductive Awaiting where
  | nothing
  /-- Patterns go on to the next option; there has to be one. -/
  | patterns (given : Bool)
  | output
  | baseDir
  deriving DecidableEq, Repr

namespace Awaiting

def isPressing : Awaiting → Bool
  | nothing | patterns true => false
  | patterns false | output | baseDir => true

end Awaiting

def once (given : Bool) (a : Arguments) : Option (Awaiting × Arguments) :=
  if given then none else some (.nothing, a)

def setOutput (a : Arguments) (v : String) : Option Arguments :=
  if a.output.isSome then none else some { a with output := some v }

/-- The base directory is a path, so it is not empty. -/
def setBaseDir (a : Arguments) (v : String) : Option Arguments :=
  if a.baseDir.isSome ∨ v.toList = [] then none else some { a with baseDir := some v }

def addPath (a : Arguments) (v : String) : Option Arguments :=
  if v.toList = [] then none else some { a with paths := a.paths ++ [v] }

def addPattern (a : Arguments) (v : String) : Arguments := { a with ignore := a.ignore ++ [v] }

/-- A value for whatever awaits one, or a path. -/
def takeValue (a : Arguments) (awaiting : Awaiting) (v : String) : Option (Awaiting × Arguments) :=
  match awaiting with
  | .nothing => (a.addPath v).map (.nothing, ·)
  | .patterns _ => some (.patterns true, a.addPattern v)
  | .output => (a.setOutput v).map (.nothing, ·)
  | .baseDir => (a.setBaseDir v).map (.nothing, ·)

def takeOption (a : Arguments) (name : String) (value : Option String) :
    Option (Awaiting × Arguments) :=
  match name, value with
  | "json", none => once a.json { a with json := true }
  | "sequential", none => once a.sequential { a with sequential := true }
  | "memoize", none => once a.memoize { a with memoize := true }
  | "ignore", none => some (.patterns false, a)
  | "ignore", some v => some (.nothing, a.addPattern v)
  | "output", none => if a.output.isSome then none else some (.output, a)
  | "output", some v => (a.setOutput v).map (.nothing, ·)
  | "base-dir", none => if a.baseDir.isSome then none else some (.baseDir, a)
  | "base-dir", some v => (a.setBaseDir v).map (.nothing, ·)
  | _, _ => none

/-- The name of an option and what follows its equals sign. -/
def splitOption (cs : List Char) : String × Option String :=
  let name := cs.takeWhile (· != '=')
  (String.ofList name, match cs.drop name.length with
    | [] => none
    | _ :: value => some (String.ofList value))

def addPaths (a : Arguments) : List String → Option Arguments
  | [] => some a
  | v :: vs => (a.addPath v).bind (addPaths · vs)

/-- Without any path the working directory is searched. -/
def withDefaults (a : Arguments) : Arguments :=
  if a.paths.isEmpty then { a with paths := ["."] } else a

/-- Reads arguments in order. After two dashes all that follows are paths; a single dash is a
value, and any other text that starts with a dash is an option. An option that asks for a text is
answered at once, so nothing after it counts and nothing before it is done. -/
def parseFrom (awaiting : Awaiting) (a : Arguments) : List String → Option Request
  | [] => if awaiting.isPressing then none else some (.run a.withDefaults)
  | arg :: rest =>
    match arg.toList with
    | ['-', '-'] =>
      if awaiting.isPressing then none
      else (a.addPaths rest).map fun a => .run a.withDefaults
    | '-' :: '-' :: cs =>
      if awaiting.isPressing then none
      else match Request.ofLong? (String.ofList cs) with
        | some text => some text
        | none =>
          let (name, value) := splitOption cs
          (a.takeOption name value).bind fun (awaiting, a) => parseFrom awaiting a rest
    | '-' :: c :: _ => if awaiting.isPressing then none else Request.ofShort? c
    | _ => (a.takeValue awaiting arg).bind fun (awaiting, a) => parseFrom awaiting a rest

end Arguments

def Request.parse? (args : List String) : Option Request := Arguments.parseFrom .nothing {} args

end EnumCover
