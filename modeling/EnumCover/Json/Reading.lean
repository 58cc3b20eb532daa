namespace EnumCover

inductive Reading (α : Type) where
  | value (a : α)
  | fault (line : Nat)
  deriving DecidableEq, Repr

namespace Reading

variable {α β : Type}

def map (f : α → β) : Reading α → Reading β
  | value a => value (f a)
  | fault line => fault line

def seq : Reading (α → β) → Reading α → Reading β
  | value f, value a => value (f a)
  | value _, fault m => fault m
  | fault l, value _ => fault l
  | fault l, fault m => fault (min l m)

instance : Applicative Reading where
  pure := value
  map := map
  seq f x := seq f (x ())

/-- Goes on with a value, when the second part makes no sense without the first. -/
def andThen : Reading α → (α → Reading β) → Reading β
  | value a, f => f a
  | fault line, _ => fault line

def all : List (Reading α) → Reading (List α)
  | [] => value []
  | x :: xs => seq (map List.cons x) (all xs)

def toOption : Reading α → Option α
  | value a => some a
  | fault _ => none

@[simp] theorem map_value (f : α → β) (a : α) : map f (value a) = value (f a) := rfl

@[simp] theorem seq_value (f : α → β) (a : α) : seq (value f) (value a) = value (f a) := rfl

theorem seq_eq_value_iff {f : Reading (α → β)} {x : Reading α} {b : β} :
    seq f x = value b ↔ ∃ g a, f = value g ∧ x = value a ∧ g a = b := by
  cases f <;> cases x <;> simp [seq]

end Reading

end EnumCover
