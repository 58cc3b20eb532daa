import EnumCover.Check.Report
import EnumCover.Command.Arguments
import EnumCover.Command.OutputPath
import EnumCover.Config
import EnumCover.Snapshot.Assembly

namespace EnumCover

structure Settings where
  json : Bool
  parallel : Bool
  memoize : Bool
  ignore : List String
  deriving DecidableEq, Repr

namespace Settings

/-- Arguments win over the configuration, and patterns of both count. -/
def combine (a : Arguments) : Option Config → Settings
  | none => ⟨a.json, !a.sequential, a.memoize, a.ignore⟩
  | some c =>
    ⟨a.json || c.asksForJson, !a.sequential && c.parallel.getD true,
      a.memoize || c.memoize.getD false, a.ignore ++ c.ignore.getD []⟩

end Settings

structure RunResult where
  exitCode : Nat
  stdout : String := ""
  stderr : String := ""
  files : FileSystem

namespace Run

def hang (indent : String) (s : String) : String :=
  String.ofList (s.toList.flatMap fun c => if c = '\n' then '\n' :: indent.toList else [c])

def causeLines : List String → String
  | [] => ""
  | [cause] => "\n    " ++ hang "    " cause
  | causes => String.join (causes.zipIdx.map fun (cause, n) =>
    "\n    " ++ integerText n ++ ": " ++ hang "       " cause)

def errorText (error : String) (causes : List String) : String :=
  "Error: " ++ error ++ (if causes.isEmpty then "" else "\n\nCaused by:" ++ causeLines causes) ++
    "\n"

def failed (fs : FileSystem) (warning error : String) (causes : List String) : RunResult :=
  { exitCode := 1, stderr := warning ++ errorText error causes, files := fs }

/-- The configuration, and a warning if it had to be passed over. -/
def configOrWarning (w : Wording) (fs : FileSystem) (base : String) :
    Except Failure (Option Config × String) :=
  match fs.readConfig base with
  | .ok c => .ok (c, "")
  | .error f =>
    if f.isRecoverable then .ok (none, "[WARN] config load failed: " ++ f.message w ++ "\n")
    else .error f

def deliver (fs : FileSystem) (warning : String) (output : Option String) (report : String) :
    RunResult :=
  match output with
  | none => { exitCode := 0, stderr := warning ++ report, files := fs }
  | some path => match fs.writeFile path report.toUTF8 with
    | .ok fs => { exitCode := 0, stderr := warning, files := fs }
    | .error e => failed fs warning ("Failed to write report to " ++ path) [e.message]

def withArguments (w : Wording) (fs : FileSystem) (a : Arguments) : RunResult :=
  let base := a.baseDir.getD fs.workingPath
  match configOrWarning w fs base with
  | .error f => failed fs "" (f.message w) ((f.causes w).drop 1)
  | .ok (config, warning) =>
    let settings := Settings.combine a config
    match a.output.mapM OutputPath.check with
    | .error fault =>
      failed fs warning "Invalid output path" [fault.message (a.output.getD "")]
    | .ok output => match fs.assemble a.paths with
      | .error f => failed fs warning "Failed to load program graph" (f.causes w)
      | .ok program =>
        let report := program.check ⟨settings.memoize, settings.ignore⟩
        deliver fs warning output (report.render settings.json base)

def version : String := "exhaustive-cli 0.1.0\n"

end Run

/-- Runs the command with the given arguments. The texts about the command are given without a look
at any file. -/
def run (w : Wording) (fs : FileSystem) (args : List String) : RunResult :=
  match Request.parse? args with
  | none => { exitCode := 2, stderr := w.arguments args, files := fs }
  | some .help => { exitCode := 0, stdout := w.help, files := fs }
  | some .version => { exitCode := 0, stdout := Run.version, files := fs }
  | some (.run a) => Run.withArguments w fs a

end EnumCover
