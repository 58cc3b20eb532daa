import EnumCover.Snapshot.Discovery
import EnumCover.Snapshot.Reader

namespace EnumCover

namespace Assembly

/-- Keeps the first of several spellings of a path. -/
def dedupe (seen : List (List Component)) : List String → List String
  | [] => []
  | p :: ps =>
    let cs := Path.components p
    if cs ∈ seen then dedupe seen ps else p :: dedupe (cs :: seen) ps

def merge (seen : List String) : List (String × Package) → Except Failure (List Package)
  | [] => .ok []
  | (file, package) :: rest =>
    if package.path ∈ seen then .error (.duplicatePackage package.path file)
    else (merge (package.path :: seen) rest).map (package :: ·)

end Assembly

namespace FileSystem

def allSnapshots (fs : FileSystem) : List String → Except Failure (List String)
  | [] => .ok []
  | root :: roots => do
    let here ← fs.snapshotsUnder root
    let rest ← fs.allSnapshots roots
    return here ++ rest

def readSnapshot (fs : FileSystem) (path : String) : Except Failure Program :=
  match fs.readText path with
  | .error e => .error (.file path e)
  | .ok text => match Program.ofSnapshot text with
    | .value p => .ok p
    | .fault line => .error (.snapshot path line)

def readPackages (fs : FileSystem) : List String → Except Failure (List (String × Package))
  | [] => .ok []
  | path :: paths => do
    let program ← fs.readSnapshot path
    let rest ← fs.readPackages paths
    return program.packages.map (path, ·) ++ rest

/-- Loads and merges every snapshot below the roots. -/
def assemble (fs : FileSystem) (roots : List String) : Except Failure Program := do
  if roots.isEmpty then throw .noInputs
  let files := Assembly.dedupe [] (← fs.allSnapshots roots)
  if files.isEmpty then throw (.noSnapshots roots)
  let packages ← Assembly.merge [] (← fs.readPackages files)
  match packages.find? (!·.diagnostics.isEmpty) with
  | some failed => throw (.diagnostics failed.path failed.diagnostics)
  | none => return ⟨packages⟩

end FileSystem

end EnumCover
