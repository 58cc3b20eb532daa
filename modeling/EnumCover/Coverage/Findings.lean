import EnumCover.Coverage.Outcome
import EnumCover.Program.Traversal

namespace EnumCover

structure Violation where
  file : String
  position : Position
  missing : List Constant
  deriving DecidableEq, Repr

structure Stats where
  /-- All switches, with a tag or without. -/
  total : Nat := 0
  applicable : Nat := 0
  catchAll : Nat := 0
  unresolved : Nat := 0
  violations : Nat := 0
  deriving DecidableEq, Repr

namespace Stats

def add (a b : Stats) : Stats :=
  ⟨a.total + b.total, a.applicable + b.applicable, a.catchAll + b.catchAll,
    a.unresolved + b.unresolved, a.violations + b.violations⟩

instance : Add Stats := ⟨add⟩

def ofOutcome : Outcome → Stats
  | .notApplicable => {}
  | .covered => { applicable := 1 }
  | .catchAll => { applicable := 1, catchAll := 1 }
  | .unresolved => { applicable := 1, unresolved := 1 }
  | .missing _ => { applicable := 1, violations := 1 }

end Stats

structure Findings where
  violations : List Violation := []
  stats : Stats := {}
  deriving DecidableEq, Repr

namespace Findings

def append (a b : Findings) : Findings := ⟨a.violations ++ b.violations, a.stats + b.stats⟩

def ofOutcome (file : String) (position : Position) (o : Outcome) : Findings :=
  let stats : Stats := { total := 1 }
  match o with
  | .missing cs => ⟨[⟨file, position, cs⟩], stats + .ofOutcome o⟩
  | _ => ⟨[], stats + .ofOutcome o⟩

end Findings

namespace Lookup

/-- The findings of one switch. Without a tag it is only counted. -/
def findSwitch (r : Lookup) (file : String) (s : Switch) : Findings × Lookup :=
  match s.tag with
  | none => (⟨[], { total := 1 }⟩, r)
  | some _ =>
    let (o, r) := r.outcome s.tagType? s.clauses
    (.ofOutcome file s.span.start o, r)

def findSwitches (r : Lookup) (file : String) : List Switch → Findings × Lookup
  | [] => ({}, r)
  | s :: ss =>
    let (here, r) := r.findSwitch file s
    let (rest, r) := r.findSwitches file ss
    (here.append rest, r)

def findFile (r : Lookup) (f : SourceFile) : Findings × Lookup :=
  r.findSwitches f.name f.switches

def findFiles (r : Lookup) : List SourceFile → Findings × Lookup
  | [] => ({}, r)
  | f :: fs =>
    let (here, r) := r.findFile f
    let (rest, r) := r.findFiles fs
    (here.append rest, r)

end Lookup

end EnumCover
