import EnumCover.Files.Tree
import EnumCover.Failure

namespace EnumCover

namespace Discovery

def excluded : List String := ["target", ".git", "node_modules"]

def isSnapshotName (name : String) : Bool := snapshotSuffix.toList.isSuffixOf name.toList

mutual
def snapshots (path name : String) : FileEntry → List String
  | .file _ => if isSnapshotName name then [path] else []
  | .dir entries => if name ∈ excluded then [] else snapshotsIn path entries

def snapshotsIn (path : String) : List (String × FileEntry) → List String
  | [] => []
  | (name, e) :: rest => snapshots (Path.join path name) name e ++ snapshotsIn path rest
end

variable {path name p : String}

theorem snapshotsIn_eq (path : String) (entries : List (String × FileEntry)) :
    snapshotsIn path entries =
      entries.flatMap fun m => snapshots (Path.join path m.1) m.1 m.2 := by
  induction entries with
  | nil => rfl
  | cons m entries ih => rw [snapshotsIn, ih, List.flatMap_cons]

theorem mem_snapshots_file_iff {bytes : ByteArray} :
    p ∈ snapshots path name (.file bytes) ↔ isSnapshotName name = true ∧ p = path := by
  rw [snapshots, List.mem_ite_nil_right, List.mem_singleton]

theorem mem_snapshots_dir_iff {entries : List (String × FileEntry)} :
    p ∈ snapshots path name (.dir entries) ↔
      name ∉ excluded ∧ ∃ m ∈ entries, p ∈ snapshots (Path.join path m.1) m.1 m.2 := by
  rw [snapshots, List.mem_ite_nil_left, snapshotsIn_eq, List.mem_flatMap]

end Discovery

namespace FileSystem

/-- The snapshots of a root in the order of paths. A root that is a file is one, whatever its
name. -/
def snapshotsUnder (fs : FileSystem) (root : String) : Except Failure (List String) :=
  match fs.resolve root with
  | .error e => .error (.file root e)
  | .ok (.file _) => .ok [root]
  | .ok (.dir entries) =>
    let name := (Path.fileName? root).getD root
    .ok ((Discovery.snapshots root name (.dir entries)).mergeSort Path.le)

end FileSystem

end EnumCover
