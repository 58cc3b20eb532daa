import EnumCover.Files.Error
import EnumCover.Path.Components

namespace EnumCover

inductive FileEntry where
  | file (bytes : ByteArray)
  | dir (entries : List (String × FileEntry))

namespace FileEntry

def lookup? (name : String) : FileEntry → Option FileEntry
  | file _ => none
  | dir entries => entries.lookup name

def isDir : FileEntry → Bool
  | dir _ => true
  | file _ => false

/-- Replaces the entry of a name, or adds one at the end. -/
def insertEntry (name : String) (e : FileEntry) :
    List (String × FileEntry) → List (String × FileEntry)
  | [] => [(name, e)]
  | (n, old) :: rest => if n = name then (n, e) :: rest else (n, old) :: insertEntry name e rest

/-- Puts an entry at a path of names. Directories on the way are made where nothing stands. -/
def put (new : FileEntry) : List String → FileEntry → FileEntry
  | [], _ => new
  | name :: names, dir entries =>
    let inner := (entries.lookup name).getD (dir [])
    dir (insertEntry name (put new names inner) entries)
  | _ :: _, file bytes => file bytes

/-- Goes from a directory along some segments; the entries above it are kept for the way back. -/
def walk (here : FileEntry) (above : List FileEntry) :
    List (List Char) → Except FileError FileEntry
  | [] => .ok here
  | seg :: segs =>
    match here with
    | file _ => .error .notDirectory
    | dir entries =>
      match Path.segment? seg with
      | none | some .root | some .current => walk here above segs
      | some .parent => match above with
        | [] => walk here [] segs
        | up :: above => walk up above segs
      | some (.name n) => match entries.lookup n with
        | some e => walk e (here :: above) segs
        | none => .error .notFound

end FileEntry

/-- A root directory and the names that lead from it to the working directory. -/
structure FileSystem where
  root : FileEntry
  working : List String

namespace FileSystem

def workingPath (fs : FileSystem) : String := "/" ++ "/".intercalate fs.working

def fullSegments (fs : FileSystem) (path : List Char) : List (List Char) :=
  match path with
  | '/' :: rest => Path.splitSlash rest
  | rest => fs.working.map String.toList ++ Path.splitSlash rest

def resolve (fs : FileSystem) (path : String) : Except FileError FileEntry :=
  if path.toList = [] then .error .notFound
  else fs.root.walk [] (fs.fullSegments path.toList)

def has (fs : FileSystem) (path : String) : Bool :=
  match fs.resolve path with
  | .ok _ => true
  | .error _ => false

def readText (fs : FileSystem) (path : String) : Except FileError String :=
  match fs.resolve path with
  | .error e => .error e
  | .ok (.dir _) => .error .isDirectory
  | .ok (.file bytes) => match String.fromUTF8? bytes with
    | some s => .ok s
    | none => .error .notText

/-- The names of a path relative to the working directory, without its dots. -/
def namesOf (segs : List (List Char)) : List String :=
  (segs.filterMap Path.segment?).filterMap fun
    | .name s => some s
    | _ => none

/-- Writes a file at a relative path that never goes up. The directory has to be there, and
nothing can be written at a path that ends in a slash or a dot, or where a directory stands. -/
def writeFile (fs : FileSystem) (path : String) (bytes : ByteArray) : Except FileError FileSystem :=
  if path.toList = [] then .error .notFound
  else
    let segs := Path.splitSlash path.toList
    let body := (segs.reverse.dropWhile (· == [])).reverse
    let above := body.dropLast
    match fs.root.walk [] (fs.working.map String.toList ++ above) with
    | .error e => .error e
    | .ok (.file _) => .error .notDirectory
    | .ok (.dir entries) =>
      match (body.getLast?).bind Path.segment? with
      | some (.name n) =>
        if body.length < segs.length then .error .isDirectory
        else match entries.lookup n with
          | some (.dir _) => .error .isDirectory
          | _ =>
            let target := fs.working ++ namesOf body
            .ok { fs with root := FileEntry.put (.file bytes) target fs.root }
      | _ => .error .isDirectory

end FileSystem

end EnumCover
