import EnumCover.Json.Parser

namespace EnumCover

namespace Json

def IsBlank (c : Char) : Prop := c = '\n' ∨ c = ' ' ∨ c = '\t' ∨ c = '\r'

instance (c : Char) : Decidable (IsBlank c) :=
  inferInstanceAs (Decidable (c = '\n' ∨ c = ' ' ∨ c = '\t' ∨ c = '\r'))

/-- What may stand between two tokens. -/
abbrev Blanks := { cs : List Char // ∀ c ∈ cs, IsBlank c }

/-- One or more decimal digits. -/
abbrev Digits := { ds : List Char // ds ≠ [] ∧ ∀ d ∈ ds, isDecimalDigit d = true }

structure Padded (α : Type) where
  before : Blanks
  value : α
  after : Blanks

structure ExponentSpelling where
  mark : Char
  mark_eq : mark = 'e' ∨ mark = 'E'
  /-- A minus sign, a plus sign or none. -/
  negative? : Option Bool
  digits : Digits

namespace ExponentSpelling

def signChars : Option Bool → List Char
  | some true => ['-']
  | some false => ['+']
  | none => []

def chars (e : ExponentSpelling) : List Char := e.mark :: signChars e.negative? ++ e.digits.1

def value (e : ExponentSpelling) : Int :=
  if e.negative? = some true then -(decimalValue e.digits.1 : Int) else decimalValue e.digits.1

end ExponentSpelling

/-- A numeral without superfluous zeros in front. -/
structure NumeralSpelling where
  negative : Bool
  whole : Digits
  whole_eq : whole.1.head? = some '0' → whole.1 = ['0']
  part : Option Digits
  exponent : Option ExponentSpelling

namespace NumeralSpelling

def partChars : Option Digits → List Char
  | some ds => '.' :: ds.1
  | none => []

def exponentChars : Option ExponentSpelling → List Char
  | some e => e.chars
  | none => []

def chars (n : NumeralSpelling) : List Char :=
  (if n.negative then ['-'] else []) ++ n.whole.1 ++ partChars n.part ++ exponentChars n.exponent

def numeral (n : NumeralSpelling) : Numeral where
  negative := n.negative
  whole := n.whole.1
  part := (n.part.map Subtype.val).getD []
  exponent := (n.exponent.map ExponentSpelling.value).getD 0
  integral := n.part.isNone && n.exponent.isNone

end NumeralSpelling

/-- An element of a string: a character, an escape with one letter or sign, or a code unit. -/
inductive StringPiece where
  | plain (c : Char) (h : c ≠ '"' ∧ c ≠ '\\' ∧ 0x20 ≤ c.toNat)
  | escape (c e : Char) (h : StringUnit.escape? c = some e)
  | code (a b c d : Char) (n : Nat) (h : natOfDigits? 16 [a, b, c, d] = some n)

namespace StringPiece

def chars : StringPiece → List Char
  | plain c _ => [c]
  | escape c _ _ => ['\\', c]
  | code a b c d _ _ => ['\\', 'u', a, b, c, d]

def unit : StringPiece → StringUnit
  | plain c _ => .char c
  | escape _ e _ => .char e
  | code _ _ _ _ n _ => .code n

def quoted (ps : List StringPiece) : List Char := '"' :: ps.flatMap chars ++ ['"']

/-- The text that a string stands for, unless half of a surrogate pair stands in it. -/
def text? (ps : List StringPiece) : Option String := StringUnit.text? (ps.map unit)

end StringPiece

abbrev KeySpelling := Padded (List StringPiece)

/-- A value as it is written, with the blanks around each item and member and those before a
closing bracket. -/
inductive Spelling where
  | null
  | bool (b : Bool)
  | number (n : NumeralSpelling)
  | string (ps : List StringPiece)
  | array (items : List (Padded Spelling)) (gap : Blanks)
  | object (members : List (KeySpelling × Padded Spelling)) (gap : Blanks)

namespace Spelling

mutual
def chars : Spelling → List Char
  | null => ['n', 'u', 'l', 'l']
  | bool true => ['t', 'r', 'u', 'e']
  | bool false => ['f', 'a', 'l', 's', 'e']
  | number n => n.chars
  | string ps => StringPiece.quoted ps
  | array items gap => '[' :: itemsChars items ++ gap.1 ++ [']']
  | object members gap => '{' :: membersChars members ++ gap.1 ++ ['}']

def itemsChars : List (Padded Spelling) → List Char
  | [] => []
  | [⟨b, s, a⟩] => b.1 ++ s.chars ++ a.1
  | ⟨b, s, a⟩ :: rest => b.1 ++ s.chars ++ a.1 ++ ',' :: itemsChars rest

def membersChars : List (KeySpelling × Padded Spelling) → List Char
  | [] => []
  | [(k, ⟨b, s, a⟩)] =>
    k.before.1 ++ StringPiece.quoted k.value ++ k.after.1 ++ ':' :: b.1 ++ s.chars ++ a.1
  | (k, ⟨b, s, a⟩) :: rest =>
    k.before.1 ++ StringPiece.quoted k.value ++ k.after.1 ++ ':' :: b.1 ++ s.chars ++ a.1 ++
      ',' :: membersChars rest
end

mutual
/-- The value that is written, without lines. -/
def node : Spelling → Node
  | null => .null 0
  | bool b => .bool 0 b
  | number n => .number 0 n.numeral
  | string ps => .string 0 (StringPiece.text? ps)
  | array items _ => .array 0 (itemNodes items) (.closed 0)
  | object members _ => .object 0 (memberNodes members) (.closed 0)

def itemNodes : List (Padded Spelling) → List Node
  | [] => []
  | ⟨_, s, _⟩ :: rest => s.node :: itemNodes rest

def memberNodes : List (KeySpelling × Padded Spelling) → List (Key × Node)
  | [] => []
  | (k, ⟨_, s, _⟩) :: rest => (⟨StringPiece.text? k.value, 0⟩, s.node) :: memberNodes rest
end

/-- A whole text: a value with blanks around it. -/
def text (s : Padded Spelling) : String :=
  String.ofList (s.before.1 ++ s.value.chars ++ s.after.1)

end Spelling

end Json

end EnumCover
