import EnumCover.Command.Run

namespace EnumCover.Disk

/-- Reads a file, or a directory with the snapshots below it. Other files in it only have names. -/
partial def readEntry (path : String) : IO FileEntry := do
  let real ← IO.FS.realPath path
  if ← real.isDir then
    let mut entries := []
    for e in ← real.readDir do
      let entry ←
        if ← e.path.isDir then
          if Discovery.excluded.contains e.fileName then pure (.dir [])
          else readEntry e.path.toString
        else if Discovery.isSnapshotName e.fileName then readEntry e.path.toString
        else pure (.file .empty)
      entries := (e.fileName, entry) :: entries
    return .dir entries
  else return .file (← IO.FS.readBinFile path)

def realNames? (path : String) : IO (Option (List String)) := do
  let real ← try IO.FS.realPath path catch _ => return none
  if ← real.pathExists then
    return some (FileSystem.namesOf (Path.splitSlash real.toString.toList))
  else return none

def mountWay (root : FileEntry) (path : String) : IO FileEntry := do
  let segs := Path.splitSlash path.toList
  let mut root := root
  for n in List.range segs.length do
    if let some names ← realNames? (String.ofList (Path.joinSlash (segs.take n))) then
      if let .error _ := root.walk [] (names.map String.toList) then
        root := FileEntry.put (.dir []) names root
  return root

def mount (root : FileEntry) (path : String) : IO FileEntry := do
  let root ← mountWay root path
  match ← realNames? path with
  | some names => return FileEntry.put (← readEntry path) names root
  | none => return root

end EnumCover.Disk

open EnumCover in
def main (args : List String) : IO UInt32 := do
  let cwd ← IO.currentDir
  let working := FileSystem.namesOf (Path.splitSlash cwd.toString.toList)
  let mut root := FileEntry.put (.dir []) working (.dir [])
  if let some (.run a) := Request.parse? args then
    let base := a.baseDir.getD cwd.toString
    for path in a.output.toList ++ a.paths ++ [Path.join base Config.fileName] do
      root ← Disk.mount root path
  let result := run .standard ⟨root, working⟩ args
  IO.print result.stdout
  IO.eprint result.stderr
  if result.exitCode == 0 then
    if let some (.run { output := some path, .. }) := Request.parse? args then
      if let .ok report := result.files.readText path then IO.FS.writeFile path report
  return UInt32.ofNat result.exitCode
