namespace EnumCover

/-- A line and a column, both counted from one. -/
structure Position where
  line : Nat
  column : Nat
  deriving DecidableEq, Repr, Inhabited

structure Span where
  start : Position
  stop : Position
  deriving DecidableEq, Repr, Inhabited

end EnumCover
