import EnumCover.Check.Ignore
import EnumCover.Coverage.Findings
import EnumCover.Path.Components

namespace EnumCover

structure CheckOptions where
  memoize : Bool := false
  ignore : List String := []
  deriving DecidableEq, Repr

structure Report where
  violations : List Violation
  stats : Stats
  filesAnalyzed : Nat
  deriving DecidableEq, Repr

namespace Program

/-- The files of the initial packages that no pattern matches. -/
def checkedFiles (p : Program) (ignore : List String) : List SourceFile :=
  (p.packagesToCheck.flatMap (·.files)).filter (!Ignore.any ignore ·.name)

/-- Checks all switches of the initial packages. Files that are left out still count for their
declarations. -/
def check (p : Program) (options : CheckOptions) : Report :=
  let files := p.checkedFiles options.ignore
  let findings := ((Lookup.new p options.memoize).findFiles files).1
  ⟨findings.violations, findings.stats, files.length⟩

end Program

namespace Violation

def place (base : String) (file : String) (p : Position) : String :=
  Path.relativeTo base file ++ ":" ++ integerText p.line ++ ":" ++ integerText p.column

def names (v : Violation) : List String := v.missing.map (·.name)

def plainLine (base : String) (v : Violation) : String :=
  "\t" ++ place base v.file v.position ++ ": " ++ ", ".intercalate v.names ++ "\n"

def toJson (base : String) (v : Violation) : Json :=
  .obj [("column", .int v.position.column), ("file", .str (Path.relativeTo base v.file)),
    ("line", .int v.position.line), ("missing", .arr (v.names.map .str))]

end Violation

namespace Report

def banner : String := "The following switch statements are missing constants:\n"

/-- A banner and a line for each violation, or nothing if there are none. -/
def plain (base : String) (r : Report) : String :=
  if r.violations.isEmpty then "" else banner ++ String.join (r.violations.map (·.plainLine base))

def json (base : String) (r : Report) : String :=
  (Json.obj [("violations", .arr (r.violations.map (·.toJson base)))]).pretty ++ "\n"

def render (asJson : Bool) (base : String) (r : Report) : String :=
  if asJson then r.json base else r.plain base

end Report

end EnumCover
