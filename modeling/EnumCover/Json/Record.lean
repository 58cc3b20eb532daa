import EnumCover.Json.Node

namespace EnumCover

/-- The fields found for a record, and the line on which it ends. -/
structure Record where
  fields : List (String × Node)
  close : Nat

namespace Record

variable {α : Type}

def get? (r : Record) (name : String) : Option Node := r.fields.lookup name

/-- A field that has to be there; its absence shows at the end of the record. -/
def required (r : Record) (name : String) (f : Node → Reading α) : Reading α :=
  match r.get? name with
  | some n => f n
  | none => .fault r.close

/-- A field that stands for `default` if it is absent. -/
def optional (r : Record) (name : String) (default : α) (f : Node → Reading α) : Reading α :=
  match r.get? name with
  | some n => f n
  | none => .value default

end Record

namespace Node

variable {α κ : Type}

/-- Known keys occur once, unknown ones have JSON values, and all keys are texts. -/
def checkMembers (names seen : List String) : List (Key × Node) → Reading Unit
  | [] => .value ()
  | (k, x) :: rest =>
    match k.text with
    | none => Reading.fault k.line <* checkMembers names seen rest
    | some s =>
      let here : Reading Unit :=
        if s ∈ names then if s ∈ seen then .fault k.line else .value () else x.skip
      here <* checkMembers names (s :: seen) rest

def knownFields (names : List String) (members : List (Key × Node)) : List (String × Node) :=
  members.filterMap fun (k, x) => match k.text with
    | some s => if s ∈ names then some (s, x) else none
    | none => none

def checkExtra (names : List String) (items : List Node) : Reading Unit :=
  match items.drop names.length with
  | [] => .value ()
  | n :: _ => .fault n.line

def asRecord (names : List String) (f : Record → Reading α) : Node → Reading α
  | array _ items stop =>
    f ⟨names.zip items, stop.line⟩ <* checkExtra names items <* stop.check
  | object _ members stop =>
    f ⟨knownFields names members, stop.line⟩ <* checkMembers names [] members <* stop.check
  | n => n.refuse

/-- The kind that a node names. Where `byIndex` holds, its place in the list of kinds does too. -/
def kind? (kinds : List (String × κ)) (byIndex : Bool) : Node → Option κ
  | string _ (some s) => kinds.lookup s
  | number _ n =>
    match byIndex, n.toJson? with
    | true, some (.int (.ofNat i)) => kinds[i]?.map (·.2)
    | _, _ => none
  | _ => none

def isKindKey (m : Key × Node) : Bool := m.1.text == some "kind"

def variantKind (kinds : List (String × κ)) (byIndex : Bool) : Node → Reading κ
  | array _ [] stop => .fault stop.line
  | array _ (first :: _) _ =>
    match first.kind? kinds byIndex with
    | some k => .value k
    | none => first.refuse
  | object _ members stop =>
    match members.filter isKindKey with
    | [] => .fault stop.line
    | [(_, x)] =>
      match x.kind? kinds byIndex with
      | some k => .value k
      | none => x.refuse
    | _ :: (k, _) :: _ => .fault k.line
  | n => n.refuse

/-- What a variant holds besides its kind. -/
def withoutKind : Node → Node
  | array l items stop => array l items.tail stop
  | object l members stop => object l (members.filter (!isKindKey ·)) stop
  | n => n

/-- Reads a variant whose fields depend on its kind. An outermost one must have a value in all its
parts, fields that nobody knows included; inside another one that has been seen to, and kinds may be
given by their index. -/
def asVariant (depth : Nat) (inside : Bool) (kinds : List (String × κ)) (names : κ → List String)
    (f : κ → Record → Reading α) (n : Node) : Reading α :=
  let kind := n.variantKind kinds inside
  let checked := if inside then kind else kind <* n.toJson depth
  checked.andThen fun k => n.withoutKind.asRecord (names k) (f k)

def text : Node → Reading String
  | string _ (some s) => .value s
  | n => n.refuse

def flag : Node → Reading Bool
  | bool _ b => .value b
  | n => n.refuse

/-- A natural number below `2 ^ 32`, written without sign, point and exponent. -/
def coordinate : Node → Reading Nat
  | number l n =>
    let m := decimalValue n.whole
    if n.integral && !n.negative && m < twoPow 32 then .value m else .fault l
  | n => n.refuse

def items (f : Node → Reading α) : Node → Reading (List α)
  | array _ items stop => Reading.all (items.map f) <* stop.check
  | n => n.refuse

/-- A list whose items have one level less to nest. -/
def list (f : Nat → Node → Reading α) : Nat → Node → Reading (List α)
  | 0, n => n.refuse
  | depth + 1, n => n.items (f depth)

def nullable (f : Node → Reading α) : Node → Reading (Option α)
  | null _ => .value none
  | n => some <$> f n

end Node

end EnumCover
