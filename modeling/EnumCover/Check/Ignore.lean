import EnumCover.Text.Search

namespace EnumCover.Ignore

/-- A star at the end stands for any ending and a star at the start for any beginning; any other
pattern may stand anywhere in the name. -/
def applies (pattern name : String) : Bool :=
  let p := pattern.toList
  let n := name.toList
  if p.getLast? = some '*' then p.dropLast.isPrefixOf n
  else if p.head? = some '*' then p.tail.isSuffixOf n
  else Text.occursIn p n

def any (patterns : List String) (name : String) : Bool := patterns.any (applies · name)

end EnumCover.Ignore
