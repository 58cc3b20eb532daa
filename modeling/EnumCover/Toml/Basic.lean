namespace EnumCover

/-- How a table came to be. -/
inductive TableOrigin where
  | inline
  | header
  | implied
  | dotted
  deriving DecidableEq, Repr

inductive Toml where
  | str (s : String)
  | bool (b : Bool)
  | number
  | moment
  | array (items : List Toml)
  | table (origin : TableOrigin) (entries : List (String × Toml))
  | tables (items : List (List (String × Toml)))

namespace Toml

abbrev Table := List (String × Toml)

namespace Table

def replace (key : String) (value : Toml) : Table → Table
  | [] => []
  | (k, v) :: rest => if k = key then (k, value) :: rest else (k, v) :: replace key value rest

/-- Changes the table at a path from which headers start, making implied tables where nothing
stands. Of tables in double brackets the last one is meant. -/
def atHeader (f : Table → Option Table) : List String → Table → Option Table
  | [], t => f t
  | k :: ks, t =>
    match t.lookup k with
    | none => (atHeader f ks []).map fun inner => t ++ [(k, .table .implied inner)]
    | some (.table origin inner) =>
      if origin = .inline then none
      else (atHeader f ks inner).map fun inner => replace k (.table origin inner) t
    | some (.tables items) =>
      (items.getLast?).bind fun inner => (atHeader f ks inner).map fun inner =>
        replace k (.tables (items.dropLast ++ [inner])) t
    | some _ => none

def add (key : String) (value : Toml) (t : Table) : Option Table :=
  if (t.lookup key).isSome then none else some (t ++ [(key, value)])

/-- Adds a value under a dotted key. The tables on the way are those of dotted keys; a table with
a header is not one, and an implied one may only be passed through. -/
def assign (value : Toml) : List String → Table → Option Table
  | [], _ => none
  | [k], t => add k value t
  | k :: k' :: ks, t =>
    match t.lookup k with
    | none => (assign value (k' :: ks) []).map fun inner => t ++ [(k, .table .dotted inner)]
    | some (.table origin inner) =>
      if origin = .dotted ∨ (origin = .implied ∧ ks ≠ []) then
        (assign value (k' :: ks) inner).map fun inner => replace k (.table origin inner) t
      else none
    | some _ => none

def openTable (key : String) (t : Table) : Option Table :=
  match t.lookup key with
  | none => some (t ++ [(key, .table .header [])])
  | some (.table .implied inner) => some (replace key (.table .header inner) t)
  | some _ => none

def openTables (key : String) (t : Table) : Option Table :=
  match t.lookup key with
  | none => some (t ++ [(key, .tables [[]])])
  | some (.tables items) => some (replace key (.tables (items ++ [[]])) t)
  | some _ => none

end Table

inductive Statement where
  | header (path : List String)
  | tablesHeader (path : List String)
  | assign (path : List String) (value : Toml)

def build (current : List String) (root : Table) : List Statement → Option Table
  | [] => some root
  | .assign path value :: rest =>
    (Table.atHeader (Table.assign value path) current root).bind fun root =>
      build current root rest
  | .header path :: rest =>
    match path.getLast? with
    | none => none
    | some key => (Table.atHeader (Table.openTable key) path.dropLast root).bind fun root =>
      build path root rest
  | .tablesHeader path :: rest =>
    match path.getLast? with
    | none => none
    | some key => (Table.atHeader (Table.openTables key) path.dropLast root).bind fun root =>
      build path root rest

end Toml

end EnumCover
