import EnumCover.Proofs.Json.Printing
import EnumCover.Proofs.Program.TypeTexts
import EnumCover.Proofs.Snapshot.Parts
import EnumCover.Proofs.Traversal.Nodes

namespace EnumCover

def Value.IsPlain : Value → Prop
  | bool _ | str _ => True
  | int n => Json.IsWord n
  | float _ => False

theorem Reading.mem_of_all_eq_value {α β : Type} {f : α → Reading β} {xs : List α} {bs : List β}
    (h : all (xs.map f) = value bs) {b : β} (hb : b ∈ bs) : ∃ x ∈ xs, f x = value b := by
  induction xs generalizing bs with
  | nil =>
    cases h
    cases hb
  | cons x xs ih =>
    obtain ⟨_, bs', hcons, hrest, rfl⟩ := seq_eq_value_iff.mp h
    obtain ⟨b', hx, rfl⟩ := map_eq_value_iff.mp hcons
    rcases List.mem_cons.mp hb with rfl | hb
    · exact ⟨x, by simp, hx⟩
    · obtain ⟨y, hy, hfy⟩ := ih hrest hb
      exact ⟨y, List.mem_cons_of_mem _ hy, hfy⟩

namespace Content

/-- A constant, a type or a line or column somewhere in a program. -/
inductive Leaf where
  | value (v : Value)
  | type (t : TypeRef)
  | coordinate (n : Nat)

def leaf? : (c : Content) → c.Result → Option Leaf
  | value, v => some (.value v)
  | type, t => some (.type t)
  | coordinate, n => some (.coordinate n)
  | _, _ => none

/-- What stands somewhere in a part of a program. -/
inductive Holds : (c : Content) → c.Result → Leaf → Prop
  | leaf {c : Content} {a : c.Result} {l : Leaf} (h : c.leaf? a = some l) : Holds c a l
  | part {c : Content} {a : c.Result} {p : Part} {l : Leaf} (hp : p ∈ c.parts a)
    (h : Holds p.content p.value l) : Holds c a l
  | some {c : Content} {a : c.Result} {l : Leaf} (h : Holds c a l) : Holds (.nullable c) (some a) l
  | item {c : Content} {a : c.Result} {as : List c.Result} {l : Leaf} (ha : a ∈ as)
    (h : Holds c a l) : Holds (.list c) as l

/-- What can be read back once it is written. -/
def Leaf.Writable : Leaf → Prop
  | value v => v.IsPlain
  | type t => TypeRef.ofString t.text = t
  | coordinate n => n < twoPow 32

theorem not_holds_default {c : Content} {a : c.Result} (h : c.default? = some a) (l : Leaf) :
    ¬ c.Holds a l := by
  intro hl
  cases c with
  | flag =>
    cases hl with
    | leaf hl => cases hl
    | part hp => cases hp
  | nullable c =>
    cases h
    cases hl with
    | leaf hl => cases hl
    | part hp => cases hp
  | list c =>
    cases h
    cases hl with
    | leaf hl => cases hl
    | part hp => cases hp
    | item ha => cases ha
  | _ => cases h

/-- The types and coordinates that can be written. About constants nothing is said. -/
def Leaf.Readable : Leaf → Prop
  | value _ => True
  | l => l.Writable

theorem Part.Reads.source {depth : Nat} {inside : Bool} {r : Record} {p : Part}
    (h : p.Reads depth inside r) :
    (∃ n, p.content.read depth inside n = .value p.value) ∨
      p.content.default? = some p.value := by
  unfold Part.Reads at h
  split at h
  · exact .inl ⟨_, h⟩
  · exact .inr h.2

theorem part_source {c : Content} {a : c.Result} {depth : Nat} {inside : Bool} {n : Node}
    (h : c.read depth inside n = .value a) {p : Part} (hp : p ∈ c.parts a) :
    (∃ depth inside n, p.content.read depth inside n = .value p.value) ∨
      p.content.default? = some p.value := by
  have hs : c.structured = true := by
    cases c with
    | text | flag | coordinate | type | value | literalKind | nullable | list => cases hp
    | _ => rfl
  cases depth with
  | zero =>
    rw [read_zero hs] at h
    exact absurd h (Node.refuse_ne_value n a)
  | succ depth =>
    obtain ⟨-, -, r, -, hreads⟩ := (read_structured_iff hs).mp h
    exact (hreads p hp).source.imp_left fun ⟨n', hn'⟩ => ⟨depth, _, n', hn'⟩

theorem Holds.readable {c : Content} {a : c.Result} {l : Leaf} (hl : c.Holds a l) {depth : Nat}
    {inside : Bool} {n : Node} (h : c.read depth inside n = .value a) : l.Readable := by
  induction hl generalizing depth inside n with
  | @leaf c a l hl =>
    cases c with
    | value =>
      cases hl
      trivial
    | type =>
      cases hl
      obtain ⟨s, -, rfl⟩ := Reading.map_eq_value_iff.mp h
      exact congrArg TypeRef.ofString (TypeRef.text_ofString s)
    | coordinate =>
      cases hl
      obtain ⟨_, _, _, hm, rfl⟩ := Node.coordinate_eq_value_iff.mp h
      simp only [Bool.and_eq_true, decide_eq_true_eq] at hm
      exact hm.2
    | _ => cases hl
  | part hp hl ih =>
    -- A field that was left out holds nothing.
    rcases part_source h hp with ⟨depth', inside', n', hn'⟩ | hd
    · exact ih hn'
    · exact absurd hl (not_holds_default hd _)
  | some hl ih =>
    cases n with
    | null l => cases h
    | _ =>
      obtain ⟨a', ha', he⟩ := Reading.map_eq_value_iff.mp h
      cases he
      exact ih ha'
  | item ha hl ih =>
    cases depth with
    | zero => exact absurd h (Node.refuse_ne_value n _)
    | succ depth =>
      obtain ⟨_, xs, _, rfl, hall⟩ := Node.items_eq_value_iff.mp h
      obtain ⟨x, -, hx⟩ := Reading.mem_of_all_eq_value hall ha
      exact ih hx

end Content

/-- The constants that a node has itself. -/
def Visit.values : Visit → List Value
  | expr (.ident _ _ v) | expr (.selector _ _ _ v) | expr (.other _ v _) => v.toList
  | decl (.consts _ specs) => specs.map (·.value)
  | _ => []

def SourceFile.values (f : SourceFile) : List Value := f.visits.flatMap Visit.values

/-- The constants of a program, in the order of its files and their nodes. -/
def Program.values (p : Program) : List Value :=
  p.packages.flatMap fun package => package.files.flatMap SourceFile.values

namespace Content

def values : (c : Content) → c.Result → List Value
  | value, v => [v]
  | constSpec, (s : ConstSpec) => [s.value]
  | clause, c => (Clause.visits c).flatMap Visit.values
  | file, f => SourceFile.values f
  | package, (p : Package) => p.files.flatMap SourceFile.values
  | program, p => Program.values p
  | expr, e => (Expr.visits e).flatMap Visit.values
  | stmt, s => (Stmt.visits s).flatMap Visit.values
  | decl, d => (Decl.visits d).flatMap Visit.values
  | nullable c, (o : Option c.Result) => o.toList.flatMap c.values
  | list c, (as : List c.Result) => as.flatMap c.values
  | _, _ => []

section Fields

-- The lists of nodes in a field, as the traversal goes through them.

theorem values_exprs (es : List Expr) :
    (list expr).values es = (visitExprs es).flatMap Visit.values := by
  rw [visitExprs_eq, List.flatMap_assoc]
  rfl

theorem values_stmts (ss : List Stmt) :
    (list stmt).values ss = (visitStmts ss).flatMap Visit.values := by
  rw [visitStmts_eq, List.flatMap_assoc]
  rfl

theorem values_clauses (cs : List Clause) :
    (list clause).values cs = (visitClauses cs).flatMap Visit.values := by
  rw [visitClauses_eq, List.flatMap_assoc]
  rfl

theorem values_init (init : Option Stmt) :
    (nullable stmt).values init = (visitInit init).flatMap Visit.values := by
  rw [visitInit_eq, List.flatMap_assoc]
  rfl

theorem values_tag (tag : Option Expr) :
    (nullable expr).values tag = (visitTag tag).flatMap Visit.values := by
  rw [visitTag_eq, List.flatMap_assoc]
  rfl

theorem values_option (v : Option Value) : (nullable value).values v = v.toList := by
  cases v <;> rfl

theorem values_specs (specs : List ConstSpec) :
    (list constSpec).values specs = specs.map (·.value) :=
  List.flatMap_pure_eq_map _ specs

theorem values_files (files : List SourceFile) :
    (list file).values files = files.flatMap SourceFile.values := rfl

theorem values_decls (decls : List Decl) :
    (list decl).values decls = (decls.flatMap Decl.visits).flatMap Visit.values := by
  rw [List.flatMap_assoc]
  rfl

-- Fields without constants.

theorem values_types (t : Option TypeRef) : (nullable type).values t = [] :=
  List.flatMap_eq_nil_iff.mpr fun _ _ => rfl

theorem values_typeSpecs (specs : List TypeSpec) : (list typeSpec).values specs = [] :=
  List.flatMap_eq_nil_iff.mpr fun _ _ => rfl

theorem values_comments (comments : List Comment) : (list comment).values comments = [] :=
  List.flatMap_eq_nil_iff.mpr fun _ _ => rfl

theorem values_texts (texts : List String) : (list text).values texts = [] :=
  List.flatMap_eq_nil_iff.mpr fun _ _ => rfl

end Fields

theorem values_part_subset {c : Content} {a : c.Result} {p : Part} (hp : p ∈ c.parts a) :
    p.content.values p.value ⊆ c.values a := by
  have : ∀ p ∈ c.parts a, p.content.values p.value ⊆ c.values a := by
    -- First the fields are told in terms of the traversal, then the traversal is taken one step.
    cases c with
    | expr =>
      cases a <;> simp only [parts, exprParts, List.forall_mem_cons, values_exprs,
        values_stmts, values_option, values_types] <;>
        simp [values, Expr.visits, Visit.values]
    | stmt =>
      rcases a with ⟨⟨⟩⟩ | _ | _ | _ <;> simp only [parts, stmtParts, List.forall_mem_cons,
        values_stmts, values_clauses, values_init, values_tag] <;>
        simp [values, Stmt.visits, Switch.visits, Visit.values]
    | decl =>
      cases a <;> simp only [parts, declParts, List.forall_mem_cons, values_exprs,
        values_stmts, values_specs, values_typeSpecs] <;>
        simp [values, Decl.visits, Visit.values]
    | clause =>
      obtain ⟨span, list, body⟩ := a
      simp only [parts, List.forall_mem_cons, values_exprs, values_stmts]
      simp [values, Clause.visits, Visit.values, Clause.list, Clause.body]
    | program => exact List.forall_mem_singleton.mpr (List.Subset.refl _)
    | _ =>
      simp only [parts, List.forall_mem_cons, values_files, values_decls,
        values_comments, values_texts]
      simp [values, SourceFile.values, SourceFile.visits, Visit.values]
  exact this p hp

theorem Holds.mem_values {c : Content} {a : c.Result} {v : Value} (h : c.Holds a (.value v)) :
    v ∈ c.values a := by
  generalize hl : Leaf.value v = l at h
  induction h with
  | @leaf c a l h =>
    subst hl
    cases c with
    | value =>
      cases h
      exact List.mem_singleton_self v
    | _ => cases h
  | part hp _ ih => exact values_part_subset hp (ih hl)
  | some _ ih => exact List.mem_flatMap.mpr ⟨_, List.mem_singleton_self _, ih hl⟩
  | item ha _ ih => exact List.mem_flatMap.mpr ⟨_, ha, ih hl⟩

end Content

end EnumCover
