import Mathlib.Algebra.Ring.Nat
import EnumCover.Check.Report
import EnumCover.Proofs.Coverage.Cases

namespace EnumCover

namespace Program

/-- Every answer in the memo is the one that the program gives. -/
def Confirms (p : Program) (memo : List (NamedType × Bool)) : Prop :=
  ∀ t b, (t, b) ∈ memo → b = p.isMarkedType t

variable {p : Program} {memo : List (NamedType × Bool)}

theorem confirms_nil (p : Program) : p.Confirms [] := by
  intro t b h
  cases h

theorem Confirms.cons (h : p.Confirms memo) (t : NamedType) :
    p.Confirms ((t, p.isMarkedType t) :: memo) := by
  intro u b hmem
  rcases List.mem_cons.mp hmem with he | hmem
  · obtain ⟨rfl, rfl⟩ := Prod.mk.inj he
    rfl
  · exact h u b hmem

theorem Confirms.lookup (h : p.Confirms memo) {t : NamedType} {b : Bool}
    (hb : memo.lookup t = some b) : b = p.isMarkedType t := by
  obtain ⟨before, after, rfl, -⟩ := List.lookup_eq_some_iff.mp hb
  exact h t b (by simp)

end Program

namespace Lookup

/-- The lookup is about the program, and every answer it remembers is right. -/
structure Answers (p : Program) (r : Lookup) : Prop where
  program_eq : r.program = p
  known : ∀ memo, r.memo = some memo → p.Confirms memo

def after (r : Lookup) (ts : List NamedType) : Lookup := ts.foldl (fun r t => (r.ask t).2) r

variable {p : Program} {r : Lookup}

theorem answers_new (p : Program) (memoize : Bool) : (new p memoize).Answers p := by
  cases memoize with
  | false => exact ⟨rfl, fun memo h => by cases h⟩
  | true => exact ⟨rfl, fun memo h => Option.some.inj h ▸ p.confirms_nil⟩

theorem Answers.ask_fst (h : r.Answers p) (t : NamedType) : (r.ask t).1 = p.isMarkedType t := by
  obtain ⟨rfl, hknown⟩ := h
  unfold ask
  split
  · rfl
  · rename_i memo hmemo
    split
    · rename_i answer hfound
      exact (hknown memo hmemo).lookup hfound
    · rfl

theorem Answers.ask_snd (h : r.Answers p) (t : NamedType) : (r.ask t).2.Answers p := by
  obtain ⟨rfl, hknown⟩ := h
  unfold ask
  split
  · exact ⟨rfl, hknown⟩
  · rename_i memo hmemo
    split
    · exact ⟨rfl, hknown⟩
    · exact ⟨rfl, fun memo' h' => Option.some.inj h' ▸ (hknown memo hmemo).cons t⟩

theorem Answers.after (h : r.Answers p) (ts : List NamedType) : (r.after ts).Answers p := by
  induction ts generalizing r with
  | nil => exact h
  | cons t ts ih => exact ih (h.ask_snd t)

theorem Answers.outcome (h : r.Answers p) (s : Switch) :
    (r.outcome s.tagType? s.clauses).1 = p.outcome s ∧
      (r.outcome s.tagType? s.clauses).2.Answers p := by
  unfold Program.outcome Lookup.outcome
  cases s.tagType?.bind TypeRef.asNamed? with
  | none => exact ⟨rfl, h⟩
  | some t =>
    refine ⟨?_, h.ask_snd t⟩
    simp only [h.ask_fst t, (h.ask_snd t).program_eq]
    rfl

end Lookup

namespace Stats

instance : Zero Stats := ⟨{}⟩

/-- A number that adds up over findings. -/
structure Counter (g : Stats → Nat) : Prop where
  zero : g 0 = 0
  add : ∀ a b, g (a + b) = g a + g b

theorem counter_total : Counter total := ⟨rfl, fun _ _ => rfl⟩

theorem counter_applicable : Counter applicable := ⟨rfl, fun _ _ => rfl⟩

theorem counter_catchAll : Counter catchAll := ⟨rfl, fun _ _ => rfl⟩

theorem counter_unresolved : Counter unresolved := ⟨rfl, fun _ _ => rfl⟩

theorem counter_violations : Counter violations := ⟨rfl, fun _ _ => rfl⟩

end Stats

namespace Findings

/-- The findings of one after the other. -/
def join (l : List Findings) : Findings := l.foldr append {}

theorem join_violations (l : List Findings) :
    (join l).violations = l.flatMap (·.violations) := by
  induction l with
  | nil => rfl
  | cons a l ih => rw [List.flatMap_cons, ← ih]; rfl

theorem join_stats (l : List Findings) : (join l).stats = (l.map (·.stats)).sum := by
  induction l with
  | nil => rfl
  | cons a l ih => rw [List.map_cons, List.sum_cons, ← ih]; rfl

end Findings

namespace Program

def violation? (p : Program) (file : String) (s : Switch) : Option Violation :=
  match p.outcome s with
  | .missing cs => some ⟨file, s.span.start, cs⟩
  | _ => none

def finding (p : Program) (file : String) (s : Switch) : Findings :=
  .ofOutcome file s.span.start (p.outcome s)

def findings (p : Program) (f : SourceFile) : Findings :=
  .join (f.switches.map (p.finding f.name))

theorem outcome_of_tag_eq_none {p : Program} {s : Switch} (h : s.tag = none) :
    p.outcome s = .notApplicable := by
  apply outcome_of_not_isOver
  rintro t ⟨tag, htag, -⟩
  rw [h] at htag
  cases htag

theorem finding_violations (p : Program) (file : String) (s : Switch) :
    (p.finding file s).violations = (p.violation? file s).toList := by
  unfold finding violation? Findings.ofOutcome
  cases p.outcome s <;> rfl

theorem finding_stats (p : Program) (file : String) (s : Switch) :
    (p.finding file s).stats = { total := 1 } + Stats.ofOutcome (p.outcome s) := by
  unfold finding Findings.ofOutcome
  cases p.outcome s <;> rfl

theorem findings_violations (p : Program) (f : SourceFile) :
    (p.findings f).violations = f.switches.filterMap (p.violation? f.name) := by
  simp only [findings, Findings.join_violations, List.flatMap_map, finding_violations,
    List.filterMap_eq_flatMap_toList]

end Program

namespace Stats

variable {g : Stats → Nat}

theorem Counter.join (hg : Counter g) (l : List Findings) :
    g (Findings.join l).stats = (l.map fun a => g a.stats).sum := by
  induction l with
  | nil => exact hg.zero
  | cons a l ih =>
    rw [List.map_cons, List.sum_cons, ← ih]
    exact hg.add _ _

/-- A counter that goes up by one for some switches ends at their number. -/
theorem Counter.findings (hg : Counter g) {p : Program} {P : Switch → Bool}
    (hP : ∀ file s, g (p.finding file s).stats = if P s then 1 else 0) (f : SourceFile) :
    g (p.findings f).stats = f.switches.countP P := by
  rw [Program.findings, hg.join, List.map_map]
  induction f.switches with
  | nil => rfl
  | cons s ss ih =>
    rw [List.map_cons, List.sum_cons, ih, List.countP_cons, Function.comp_apply, hP, Nat.add_comm]

theorem Counter.files (hg : Counter g) {p : Program} {P : Switch → Bool}
    (hP : ∀ file s, g (p.finding file s).stats = if P s then 1 else 0) (fs : List SourceFile) :
    g (Findings.join (fs.map p.findings)).stats = (fs.flatMap (·.switches)).countP P := by
  rw [hg.join, List.map_map, List.countP_flatMap]
  congr 1
  apply List.map_congr_left
  intro f _
  exact hg.findings hP f

end Stats

namespace Lookup

variable {p : Program} {r : Lookup}

theorem Answers.findSwitch (h : r.Answers p) (file : String) (s : Switch) :
    (r.findSwitch file s).1 = p.finding file s ∧ (r.findSwitch file s).2.Answers p := by
  unfold Lookup.findSwitch Program.finding
  cases htag : s.tag with
  | none =>
    rw [Program.outcome_of_tag_eq_none htag]
    exact ⟨rfl, h⟩
  | some tag =>
    obtain ⟨ho, hr⟩ := h.outcome s
    exact ⟨by rw [← ho], hr⟩

theorem Answers.findSwitches (h : r.Answers p) (file : String) (ss : List Switch) :
    (r.findSwitches file ss).1 = .join (ss.map (p.finding file)) ∧
      (r.findSwitches file ss).2.Answers p := by
  induction ss generalizing r with
  | nil => exact ⟨rfl, h⟩
  | cons s ss ih =>
    obtain ⟨hs, hr⟩ := h.findSwitch file s
    obtain ⟨hss, hr'⟩ := ih hr
    refine ⟨?_, hr'⟩
    simp only [Lookup.findSwitches, hs, hss]
    rfl

theorem Answers.findFile (h : r.Answers p) (f : SourceFile) :
    (r.findFile f).1 = p.findings f ∧ (r.findFile f).2.Answers p :=
  h.findSwitches f.name f.switches

theorem Answers.findFiles (h : r.Answers p) (fs : List SourceFile) :
    (r.findFiles fs).1 = .join (fs.map p.findings) ∧ (r.findFiles fs).2.Answers p := by
  induction fs generalizing r with
  | nil => exact ⟨rfl, h⟩
  | cons f fs ih =>
    obtain ⟨hf, hr⟩ := h.findFile f
    obtain ⟨hfs, hr'⟩ := ih hr
    refine ⟨?_, hr'⟩
    simp only [Lookup.findFiles, hf, hfs]
    rfl

end Lookup

namespace Report

def ofFindings (l : List Findings) : Report :=
  ⟨(Findings.join l).violations, (Findings.join l).stats, l.length⟩

end Report

/-- A check reports the findings of its files one after the other, memo or not. -/
theorem Program.check_eq (p : Program) (o : CheckOptions) :
    p.check o = .ofFindings ((p.checkedFiles o.ignore).map p.findings) := by
  obtain ⟨hfound, -⟩ := (Lookup.answers_new p o.memoize).findFiles (p.checkedFiles o.ignore)
  simp only [Program.check, hfound, Report.ofFindings, List.length_map]

end EnumCover
