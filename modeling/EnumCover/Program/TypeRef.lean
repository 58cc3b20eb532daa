import EnumCover.Text.Blank

namespace EnumCover

structure NamedType where
  package : String
  name : String
  deriving DecidableEq, Repr

/-- A declared type, a predeclared one such as `int` or `untyped int`, or anything else. -/
inductive TypeRef where
  | named (t : NamedType)
  | basic (text : String)
  | composite (text : String)
  deriving DecidableEq, Repr

namespace NamedType

def text (t : NamedType) : String := t.package ++ "." ++ t.name

end NamedType

namespace TypeRef

def isIdentifierStart (c : Char) : Bool := c.isAlpha || c == '_'

def isIdentifierPart (c : Char) : Bool := c.isAlphanum || c == '_'

/-- An ASCII letter or underscore followed by letters, digits and underscores. -/
def isIdentifier : List Char → Bool
  | [] => false
  | c :: cs => isIdentifierStart c && cs.all isIdentifierPart

/-- Characters that a package path may hold: no white space, no brackets, no star. -/
def isPathChar (c : Char) : Bool :=
  !(Text.isBlank c || ['[', ']', '(', ')', '{', '}', '*'].contains c)

def splitLastDot? (cs : List Char) : Option (List Char × List Char) :=
  let name := (cs.reverse.takeWhile (· != '.')).reverse
  match cs.reverse.dropWhile (· != '.') with
  | [] => none
  | _ :: before => some (before.reverse, name)

/-- A package path, a dot and an identifier. -/
def namedType? (cs : List Char) : Option NamedType :=
  (splitLastDot? cs).bind fun (path, name) =>
    if path ≠ [] ∧ path.all isPathChar ∧ isIdentifier name then
      some ⟨String.ofList path, String.ofList name⟩
    else none

/-- An identifier, perhaps after the word `untyped` and a space. -/
def isBasic (cs : List Char) : Bool :=
  let word := "untyped ".toList
  isIdentifier cs || (word.isPrefixOf cs && isIdentifier (cs.drop word.length))

def ofString (s : String) : TypeRef :=
  match namedType? s.toList with
  | some t => named t
  | none => if isBasic s.toList then basic s else composite s

def text : TypeRef → String
  | named t => t.text
  | basic s | composite s => s

def asNamed? : TypeRef → Option NamedType
  | named t => some t
  | _ => none

end TypeRef

end EnumCover
