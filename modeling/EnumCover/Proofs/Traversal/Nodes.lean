import EnumCover.Program.Traversal

namespace EnumCover

namespace Visit

/-- The nodes directly inside a node, in source order. -/
def children : Visit → List Visit
  | file f => f.decls.map decl
  | decl (.func _ _ body) => body.map stmt
  | decl (.var _ values) => values.map expr
  | decl (.types _ _) | decl (.consts _ _) | decl (.other _) => []
  | stmt (.switch s) => [switch s]
  | stmt (.block body) => body.map stmt
  | stmt (.expr e) => [expr e]
  | stmt (.other _) => []
  | switch s => s.init.toList.map stmt ++ (s.tag.toList.map expr ++ s.clauses.map clause)
  | clause c => c.list.map expr ++ c.body.map stmt
  | expr (.paren inner) => [expr inner]
  | expr (.funcLit body) => body.map stmt
  | expr (.other _ _ es) => es.map expr
  | expr (.ident _ _ _) | expr (.selector _ _ _ _) | expr (.lit _ _ _) => []

def initCount : Visit → Nat
  | switch s => s.init.toList.length
  | _ => 0

/-- The way from a node down to another: which of the nodes directly inside to take, and so on. -/
abbrev Address := List Nat

/-- The node at an address, seen from a node around it. -/
def at? : Visit → Address → Option Visit
  | v, [] => some v
  | v, i :: a => v.children[i]?.bind fun c => c.at? a

/-- The switch stands inside the node, or is the node, at any depth. -/
def HasSwitch (v : Visit) (s : Switch) : Prop := ∃ a, v.at? a = some (switch s)

theorem sizeOf_le_of_mem_map {α : Type} [SizeOf α] {f : α → Visit} {l : List α} {c : Visit}
    (hf : ∀ a, sizeOf (f a) = 1 + sizeOf a) (h : c ∈ l.map f) : sizeOf c ≤ sizeOf l := by
  obtain ⟨a, ha, rfl⟩ := List.mem_map.mp h
  have := List.sizeOf_lt_of_mem ha
  rw [hf]
  omega

theorem sizeOf_toList {α : Type} [SizeOf α] (o : Option α) : sizeOf o.toList ≤ 1 + sizeOf o := by
  cases o with
  | none =>
    simp only [Option.toList, List.nil.sizeOf_spec]
    omega
  | some a =>
    simp only [Option.toList, List.cons.sizeOf_spec, List.nil.sizeOf_spec,
      Option.some.sizeOf_spec]
    omega

theorem sizeOf_lt_of_mem_children {v c : Visit} (h : c ∈ v.children) : sizeOf c < sizeOf v := by
  cases v with
  | file f =>
    have := sizeOf_le_of_mem_map decl.sizeOf_spec h
    cases f
    simp only [file.sizeOf_spec, SourceFile.mk.sizeOf_spec] at *
    omega
  | decl d =>
    cases d with
    | func name span body =>
      have := sizeOf_le_of_mem_map stmt.sizeOf_spec h
      simp only [decl.sizeOf_spec, Decl.func.sizeOf_spec]
      omega
    | var span values =>
      have := sizeOf_le_of_mem_map expr.sizeOf_spec h
      simp only [decl.sizeOf_spec, Decl.var.sizeOf_spec]
      omega
    | types | consts | other => cases h
  | stmt s =>
    cases s with
    | switch s =>
      obtain rfl := List.mem_singleton.mp h
      simp only [stmt.sizeOf_spec, switch.sizeOf_spec, Stmt.switch.sizeOf_spec]
      omega
    | block body =>
      have := sizeOf_le_of_mem_map stmt.sizeOf_spec h
      simp only [stmt.sizeOf_spec, Stmt.block.sizeOf_spec]
      omega
    | expr e =>
      obtain rfl := List.mem_singleton.mp h
      simp only [stmt.sizeOf_spec, expr.sizeOf_spec, Stmt.expr.sizeOf_spec]
      omega
    | other => cases h
  | switch s =>
    obtain ⟨span, init, tag, clauses⟩ := s
    simp only [switch.sizeOf_spec, Switch.mk.sizeOf_spec]
    rcases List.mem_append.mp h with h | h
    · have := sizeOf_le_of_mem_map stmt.sizeOf_spec h
      have := sizeOf_toList init
      simp only [Switch.init] at *
      omega
    rcases List.mem_append.mp h with h | h
    · have := sizeOf_le_of_mem_map expr.sizeOf_spec h
      have := sizeOf_toList tag
      simp only [Switch.tag] at *
      omega
    · have := sizeOf_le_of_mem_map clause.sizeOf_spec h
      simp only [Switch.clauses] at *
      omega
  | clause c =>
    obtain ⟨span, list, body⟩ := c
    simp only [clause.sizeOf_spec, Clause.mk.sizeOf_spec]
    rcases List.mem_append.mp h with h | h
    · have := sizeOf_le_of_mem_map expr.sizeOf_spec h
      simp only [Clause.list] at *
      omega
    · have := sizeOf_le_of_mem_map stmt.sizeOf_spec h
      simp only [Clause.body] at *
      omega
  | expr e =>
    cases e with
    | paren inner =>
      obtain rfl := List.mem_singleton.mp h
      simp only [expr.sizeOf_spec, Expr.paren.sizeOf_spec]
      omega
    | funcLit body =>
      have := sizeOf_le_of_mem_map stmt.sizeOf_spec h
      simp only [expr.sizeOf_spec, Expr.funcLit.sizeOf_spec]
      omega
    | other type value es =>
      have := sizeOf_le_of_mem_map expr.sizeOf_spec h
      simp only [expr.sizeOf_spec, Expr.other.sizeOf_spec]
      omega
    | ident | selector | lit => cases h

/-- What holds of a node whenever it holds of the nodes directly inside holds of every node. -/
theorem children_induction {P : Visit → Prop} (step : ∀ v, (∀ c ∈ v.children, P c) → P v)
    (v : Visit) : P v :=
  step v fun c hc =>
    have := sizeOf_lt_of_mem_children hc
    children_induction step c
termination_by sizeOf v

end Visit

section Lists

theorem visitInit_eq (init : Option Stmt) : visitInit init = init.toList.flatMap Stmt.visits := by
  cases init <;> simp [visitInit]

theorem visitTag_eq (tag : Option Expr) : visitTag tag = tag.toList.flatMap Expr.visits := by
  cases tag <;> simp [visitTag]

theorem visitExprs_eq (es : List Expr) : visitExprs es = es.flatMap Expr.visits := by
  induction es with
  | nil => rfl
  | cons e es ih => rw [visitExprs, ih, List.flatMap_cons]

theorem visitStmts_eq (ss : List Stmt) : visitStmts ss = ss.flatMap Stmt.visits := by
  induction ss with
  | nil => rfl
  | cons s ss ih => rw [visitStmts, ih, List.flatMap_cons]

theorem visitClauses_eq (cs : List Clause) : visitClauses cs = cs.flatMap Clause.visits := by
  induction cs with
  | nil => rfl
  | cons c cs ih => rw [visitClauses, ih, List.flatMap_cons]

theorem switchesOfInit_eq (init : Option Stmt) :
    switchesOfInit init = init.toList.flatMap Stmt.switches := by
  cases init <;> simp [switchesOfInit]

theorem switchesOfTag_eq (tag : Option Expr) :
    switchesOfTag tag = tag.toList.flatMap Expr.switches := by
  cases tag <;> simp [switchesOfTag]

theorem switchesOfExprs_eq (es : List Expr) :
    switchesOfExprs es = es.flatMap Expr.switches := by
  induction es with
  | nil => rfl
  | cons e es ih => rw [switchesOfExprs, ih, List.flatMap_cons]

theorem switchesOfStmts_eq (ss : List Stmt) :
    switchesOfStmts ss = ss.flatMap Stmt.switches := by
  induction ss with
  | nil => rfl
  | cons s ss ih => rw [switchesOfStmts, ih, List.flatMap_cons]

theorem switchesOfClauses_eq (cs : List Clause) :
    switchesOfClauses cs = cs.flatMap Clause.switches := by
  induction cs with
  | nil => rfl
  | cons c cs ih => rw [switchesOfClauses, ih, List.flatMap_cons]

end Lists

namespace Visit

def walk : Visit → List Visit
  | file f => f.visits
  | decl d => d.visits
  | stmt s => s.visits
  | switch s => s.visits
  | clause c => c.visits
  | expr e => e.visits

theorem walk_eq (v : Visit) : v.walk = v :: v.children.flatMap walk := by
  cases v with
  | file f => simp only [walk, SourceFile.visits, children, List.flatMap_map]
  | decl d =>
    cases d <;> simp only [walk, Decl.visits, children, List.flatMap_map, List.flatMap_nil,
      visitStmts_eq, visitExprs_eq]
  | stmt s =>
    cases s <;> simp only [walk, Stmt.visits, children, List.flatMap_map, List.flatMap_nil,
      List.flatMap_singleton, visitStmts_eq]
  | switch s =>
    obtain ⟨span, init, tag, clauses⟩ := s
    simp only [walk, Switch.visits, children, Switch.init, Switch.tag, Switch.clauses,
      List.flatMap_append, List.flatMap_map, List.append_assoc, visitInit_eq, visitTag_eq,
      visitClauses_eq]
  | clause c =>
    obtain ⟨span, list, body⟩ := c
    simp only [walk, Clause.visits, children, Clause.list, Clause.body, List.flatMap_append,
      List.flatMap_map, visitExprs_eq, visitStmts_eq]
  | expr e =>
    cases e <;> simp only [walk, Expr.visits, children, List.flatMap_map, List.flatMap_nil,
      List.flatMap_singleton, visitStmts_eq, visitExprs_eq]

/-- The switches that the traversal from a node meets. -/
def metSwitches (v : Visit) : List Switch := v.walk.filterMap switch?

/-- The switches from a node downwards in the order of analysis. -/
def switches : Visit → List Switch
  | file f => f.switches
  | decl d => d.switches
  | stmt s => s.switches
  | switch s => s.switches
  | clause c => c.switches
  | expr e => e.switches

/-- The switches are listed with a node itself after the first `cut` nodes directly inside it. -/
def ListedBy (cut : Visit → Nat) (list : Visit → List Switch) : Prop :=
  ∀ v, list v = (v.children.take (cut v)).flatMap list ++
    (v.switch?.toList ++ (v.children.drop (cut v)).flatMap list)

theorem metSwitches_listed : ListedBy (fun _ => 0) metSwitches := by
  intro v
  rw [List.take_zero, List.flatMap_nil, List.nil_append, List.drop_zero, metSwitches, walk_eq,
    List.filterMap_cons, List.filterMap_flatMap]
  cases v <;> rfl

theorem switches_listed : ListedBy initCount switches := by
  intro v
  cases v with
  | file f => simp [switches, SourceFile.switches, children, initCount, switch?, List.flatMap_map]
  | decl d =>
    cases d <;> simp [switches, Decl.switches, children, initCount, switch?, List.flatMap_map,
      switchesOfStmts_eq, switchesOfExprs_eq]
  | stmt s =>
    cases s <;> simp [switches, Stmt.switches, children, initCount, switch?, List.flatMap_map,
      switchesOfStmts_eq]
  | switch s =>
    obtain ⟨span, init, tag, clauses⟩ := s
    -- the cut falls right after the init statement
    have hlen : (init.toList.map stmt).length = initCount (switch ⟨span, init, tag, clauses⟩) := by
      simp [initCount, Switch.init]
    simp only [children, ← hlen, Switch.init, Switch.tag, Switch.clauses, List.take_left,
      List.drop_left]
    simp [switches, Switch.switches, switch?, List.flatMap_map, switchesOfInit_eq,
      switchesOfTag_eq, switchesOfClauses_eq]
  | clause c =>
    obtain ⟨span, list, body⟩ := c
    simp [switches, Clause.switches, children, initCount, switch?, Clause.list, Clause.body,
      List.flatMap_map, switchesOfExprs_eq, switchesOfStmts_eq]
  | expr e =>
    cases e <;> simp [switches, Expr.switches, children, initCount, switch?, List.flatMap_map,
      switchesOfStmts_eq, switchesOfExprs_eq]

end Visit

end EnumCover
