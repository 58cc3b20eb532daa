import EnumCover.Files.Error
import EnumCover.Number.Digits
import EnumCover.Text.Quoted

namespace EnumCover

inductive ConfigFault where
  | malformed
  | unknownFormat (format : String)
  deriving DecidableEq, Repr

inductive Failure where
  | file (path : String) (cause : FileError)
  | snapshot (path : String) (line : Nat)
  | duplicatePackage (package path : String)
  | diagnostics (package : String) (messages : List String)
  | config (path : String) (fault : ConfigFault)
  | noInputs
  | noSnapshots (roots : List String)
  deriving DecidableEq, Repr

/-- The texts that come from elsewhere: how the libraries that read documents and arguments describe
what is malformed, and what the latter says about the command. -/
structure Wording where
  snapshot : Nat → String
  config : String
  arguments : List String → String := fun _ => ""
  help : String := ""

namespace Wording

def standard : Wording where
  snapshot line := "malformed at line " ++ integerText line
  config := "malformed configuration"
  arguments args := "malformed arguments: " ++ " ".intercalate args ++ "\n"
  help := "Usage: exhaustive-enum [PATH]... [--json] [--sequential] [--memoize] " ++
    "[--ignore PATTERN...] [--output FILE] [--base-dir DIR]\n"

end Wording

def snapshotSuffix : String := ".pgraph.json"

namespace ConfigFault

def message (w : Wording) : ConfigFault → String
  | malformed => w.config
  | unknownFormat f =>
    "unknown output format " ++ Text.quote f ++ " (expected \"plain\" or \"json\")"

end ConfigFault

namespace Failure

def message (w : Wording) : Failure → String
  | file path cause => "I/O error at " ++ path ++ ": " ++ cause.message
  | snapshot path line => "Invalid snapshot " ++ path ++ ": " ++ w.snapshot line
  | duplicatePackage package path =>
    "Package " ++ package ++ " is defined more than once (again in " ++ path ++ ")"
  | diagnostics package messages =>
    "Package " ++ package ++ " failed to type-check:\n" ++ "\n".intercalate messages
  | config path fault => "Config error at " ++ path ++ ": " ++ fault.message w
  | noInputs => "Invalid argument: no input paths given"
  | noSnapshots roots =>
    "Invalid argument: no *" ++ snapshotSuffix ++ " snapshots found under " ++
      ", ".intercalate roots

def path? : Failure → Option String
  | file path _ | snapshot path _ | duplicatePackage _ path | config path _ => some path
  | diagnostics _ _ | noInputs | noSnapshots _ => none

/-- Only a faulty configuration can be passed over. -/
def isRecoverable : Failure → Bool
  | config _ _ => true
  | _ => false

def causes (w : Wording) (f : Failure) : List String :=
  match f with
  | file _ cause => [f.message w, cause.message]
  | _ => [f.message w]

end Failure

end EnumCover
