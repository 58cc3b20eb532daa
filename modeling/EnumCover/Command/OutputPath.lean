import EnumCover.Path.Components
import EnumCover.Text.Search

namespace EnumCover

inductive OutputFault where
  | nullByte
  | absolute
  | parent
  | traversal
  deriving DecidableEq, Repr

namespace OutputFault

def message (path : String) : OutputFault → String
  | nullByte => "Output path contains null bytes"
  | absolute => "Output path must be relative, not absolute: " ++ path
  | parent => "Path traversal (..) not allowed in output paths: " ++ path
  | traversal => "Path traversal attempt detected: " ++ path

end OutputFault

namespace OutputPath

def slashed (path : String) : List Char := path.toList.map fun c => if c = '\\' then '/' else c

def goesUp (cs : List Char) : Bool :=
  Text.occursIn "/../".toList cs || "../".toList.isPrefixOf cs || "/..".toList.isSuffixOf cs

def check (path : String) : Except OutputFault String :=
  if path.toList.contains '\x00' then .error .nullByte
  else if Path.isAbsolute path then .error .absolute
  else if (Path.components path).contains .parent then .error .parent
  else if goesUp (slashed path) then .error .traversal
  else .ok path

end OutputPath

end EnumCover
