import EnumCover.Proofs.Check.Violations

namespace EnumCover

namespace Switch

def Applicable (p : Program) (s : Switch) : Prop := ∃ t, s.IsOver p t

/-- The default clause comes before every case without a value. -/
def CaughtAll (p : Program) (s : Switch) : Prop :=
  s.Applicable p ∧ Cases.DefaultFirst s.clauses

/-- A case without a value comes before every default clause. -/
def LeftOpen (p : Program) (s : Switch) : Prop :=
  s.Applicable p ∧ Cases.UnresolvedFirst s.clauses

/-- All cases have values, there is no default clause, and every constant of the type is matched. -/
def FullyCovered (p : Program) (s : Switch) : Prop :=
  ∃ t, s.IsOver p t ∧ Cases.AllResolved s.clauses ∧
    ∀ k ∈ p.constants t, Cases.Match s.clauses k.value

end Switch

namespace Outcome

def isMissing : Outcome → Bool
  | missing _ => true
  | _ => false

end Outcome

namespace Program

variable (p : Program) (s : Switch)

theorem outcome_ne_notApplicable_iff : p.outcome s ≠ .notApplicable ↔ s.Applicable p := by
  constructor
  · intro h
    by_contra hn
    exact h (outcome_of_not_isOver (not_exists.mp hn))
  · intro hex
    obtain ⟨t, ht⟩ := hex
    rw [outcome_of_isOver ht]
    exact p.coverage_ne_notApplicable t s.clauses

theorem outcome_eq_catchAll_iff : p.outcome s = .catchAll ↔ s.CaughtAll p := by
  rw [outcome_eq_iff (by simp)]
  simp only [coverage_eq_catchAll_iff, exists_and_right]
  rfl

theorem outcome_eq_unresolved_iff : p.outcome s = .unresolved ↔ s.LeftOpen p := by
  rw [outcome_eq_iff (by simp)]
  simp only [coverage_eq_unresolved_iff, exists_and_right]
  rfl

theorem outcome_eq_covered_iff : p.outcome s = .covered ↔ s.FullyCovered p := by
  rw [outcome_eq_iff (by simp)]
  simp only [coverage_eq_covered_iff, unmatched, List.filter_eq_nil_iff, decide_eq_true_eq,
    not_not]
  rfl

end Program

namespace Switch

variable (p : Program) (s : Switch)

instance : Decidable (s.Applicable p) := decidable_of_iff _ (p.outcome_ne_notApplicable_iff s)

instance : Decidable (s.CaughtAll p) := decidable_of_iff _ (p.outcome_eq_catchAll_iff s)

instance : Decidable (s.LeftOpen p) := decidable_of_iff _ (p.outcome_eq_unresolved_iff s)

instance : Decidable (s.FullyCovered p) := decidable_of_iff _ (p.outcome_eq_covered_iff s)

end Switch

namespace Stats

/-- The counts of some switches, given the violations found among them. -/
structure Exact (p : Program) (ss : List Switch) (vs : List Violation) (n : Stats) : Prop where
  total : n.total = ss.length
  applicable : n.applicable = ss.countP fun s => s.Applicable p
  catchAll : n.catchAll = ss.countP fun s => s.CaughtAll p
  unresolved : n.unresolved = ss.countP fun s => s.LeftOpen p
  violations : n.violations = vs.length
  le_applicable : n.catchAll + n.unresolved + n.violations ≤ n.applicable
  covered : n.applicable - n.catchAll - n.unresolved - n.violations =
    ss.countP fun s => s.FullyCovered p

theorem Exact.perm {p : Program} {ss ss' : List Switch} {vs : List Violation} {n : Stats}
    (h : n.Exact p ss vs) (hp : ss.Perm ss') : n.Exact p ss' vs where
  total := hp.length_eq ▸ h.total
  applicable := hp.countP_eq _ ▸ h.applicable
  catchAll := hp.countP_eq _ ▸ h.catchAll
  unresolved := hp.countP_eq _ ▸ h.unresolved
  violations := h.violations
  le_applicable := h.le_applicable
  covered := hp.countP_eq _ ▸ h.covered

end Stats

namespace Findings

def Tallied (a : Findings) : Prop := a.stats.violations = a.violations.length

theorem join_tallied {l : List Findings} (h : ∀ a ∈ l, a.Tallied) : (join l).Tallied := by
  induction l with
  | nil => rfl
  | cons a l ih =>
    rw [List.forall_mem_cons] at h
    have ha : a.stats.violations = a.violations.length := h.1
    have hl : (join l).stats.violations = (join l).violations.length := ih h.2
    calc (join (a :: l)).stats.violations
        = a.stats.violations + (join l).stats.violations := rfl
      _ = (a.violations ++ (join l).violations).length := by rw [ha, hl, List.length_append]

theorem join_singleton (a : Findings) : join [a] = a := by
  calc join [a] = ⟨a.violations ++ [], a.stats⟩ := rfl
    _ = a := by rw [List.append_nil]

end Findings

namespace Program

variable (p : Program)

theorem finding_tallied (file : String) (s : Switch) : (p.finding file s).Tallied := by
  unfold Findings.Tallied finding Findings.ofOutcome
  cases p.outcome s <;> rfl

theorem findings_tallied (f : SourceFile) : (p.findings f).Tallied := by
  apply Findings.join_tallied
  intro a ha
  obtain ⟨s, -, rfl⟩ := List.mem_map.mp ha
  exact p.finding_tallied f.name s

/-- Every applicable switch is of exactly one of four kinds. -/
theorem countP_applicable (ss : List Switch) :
    ss.countP (fun s => s.Applicable p) =
      ss.countP (fun s => s.CaughtAll p) + ss.countP (fun s => s.LeftOpen p) +
        ss.countP (fun s => (p.outcome s).isMissing) + ss.countP (fun s => s.FullyCovered p) := by
  have hone (s : Switch) : (if s.Applicable p then 1 else 0) =
      (if s.CaughtAll p then 1 else 0) + (if s.LeftOpen p then 1 else 0) +
        (if (p.outcome s).isMissing then 1 else 0) + if s.FullyCovered p then 1 else 0 := by
    simp only [← outcome_ne_notApplicable_iff, ← outcome_eq_catchAll_iff,
      ← outcome_eq_unresolved_iff, ← outcome_eq_covered_iff]
    cases p.outcome s <;> simp [Outcome.isMissing]
  induction ss with
  | nil => rfl
  | cons s ss ih =>
    simp only [List.countP_cons, ih, decide_eq_true_eq, hone s]
    omega

theorem exact_files (fs : List SourceFile) :
    (Findings.join (fs.map p.findings)).stats.Exact p (fs.flatMap (·.switches))
      (Findings.join (fs.map p.findings)).violations := by
  have htotal := Stats.counter_total.files (p := p) (P := fun _ => true) (fun file s => by
    rw [finding_stats]
    cases p.outcome s <;> rfl) fs
  have happ := Stats.counter_applicable.files (p := p) (P := fun s => s.Applicable p)
    (fun file s => by
      simp only [finding_stats, decide_eq_true_eq, ← outcome_ne_notApplicable_iff]
      cases p.outcome s <;> rfl) fs
  have hcatch := Stats.counter_catchAll.files (p := p) (P := fun s => s.CaughtAll p)
    (fun file s => by
      simp only [finding_stats, decide_eq_true_eq, ← outcome_eq_catchAll_iff]
      cases p.outcome s <;> rfl) fs
  have hopen := Stats.counter_unresolved.files (p := p) (P := fun s => s.LeftOpen p)
    (fun file s => by
      simp only [finding_stats, decide_eq_true_eq, ← outcome_eq_unresolved_iff]
      cases p.outcome s <;> rfl) fs
  have hmiss := Stats.counter_violations.files (p := p) (P := fun s => (p.outcome s).isMissing)
    (fun file s => by
      rw [finding_stats]
      cases p.outcome s <;> rfl) fs
  -- the other three kinds are subtracted from the applicable switches
  have hparts := p.countP_applicable (fs.flatMap (·.switches))
  have htally : (Findings.join (fs.map p.findings)).Tallied := by
    apply Findings.join_tallied
    intro a ha
    obtain ⟨f, -, rfl⟩ := List.mem_map.mp ha
    exact p.findings_tallied f
  rw [List.countP_true] at htotal
  exact ⟨htotal, happ, hcatch, hopen, htally, by omega, by omega⟩

theorem exact_file (f : SourceFile) :
    (p.findings f).stats.Exact p f.switches (p.findings f).violations := by
  have h := p.exact_files [f]
  rwa [List.map_singleton, Findings.join_singleton, List.flatMap_singleton] at h

end Program

/-- The counts of a check and of every file in it are the numbers of switches of each kind that the
traversal meets. What is left of the applicable switches without the other three kinds is fully
covered, and the counts of a check are the sum of those of its files. -/
theorem stats_exact (p : Program) (memoize : Bool) (ignore : List String) :
    (p.check ⟨memoize, ignore⟩).stats.Exact p
      ((p.checkedFiles ignore).flatMap fun f => f.visits.filterMap Visit.switch?)
      (p.check ⟨memoize, ignore⟩).violations ∧
    (∀ (f : SourceFile) (asked : List NamedType),
      (((Lookup.new p memoize).after asked).findFile f).1.stats.Exact p
        (f.visits.filterMap Visit.switch?)
        (((Lookup.new p memoize).after asked).findFile f).1.violations) ∧
    ∀ asked : SourceFile → List NamedType,
      (p.check ⟨memoize, ignore⟩).stats = ((p.checkedFiles ignore).map fun f =>
        (((Lookup.new p memoize).after (asked f)).findFile f).1.stats).sum := by
  have hfile (f : SourceFile) (asked : List NamedType) :
      (((Lookup.new p memoize).after asked).findFile f).1 = p.findings f :=
    (((Lookup.answers_new p memoize).after asked).findFile f).1
  have hmet (f : SourceFile) : f.switches.Perm (f.visits.filterMap Visit.switch?) :=
    (Visit.file f).switches_perm_metSwitches
  refine ⟨?_, ?_, ?_⟩
  · rw [p.check_eq]
    exact (p.exact_files (p.checkedFiles ignore)).perm (List.Perm.flatMap_left _ fun f _ => hmet f)
  · intro f asked
    rw [hfile f asked]
    exact (p.exact_file f).perm (hmet f)
  · intro asked
    simp only [p.check_eq, Report.ofFindings, Findings.join_stats, List.map_map, hfile,
      Function.comp_def]

/-- Of six switches four are over the marked type, and one is left for each of its kinds. -/
theorem stats_exact_everyKind :
    let met := (everyKind.checkedFiles []).flatMap fun f => f.visits.filterMap Visit.switch?
    (everyKind.check {}).stats = ⟨6, 4, 1, 1, 1⟩ ∧ met.length = 6 ∧
      met.countP (fun s => s.Applicable everyKind) = 4 ∧
      met.countP (fun s => s.CaughtAll everyKind) = 1 ∧
      met.countP (fun s => s.LeftOpen everyKind) = 1 ∧
      met.countP (fun s => s.FullyCovered everyKind) = 1 := by
  intro met
  obtain ⟨h, -, -⟩ := stats_exact everyKind false []
  have hstats : (everyKind.check {}).stats = ⟨6, 4, 1, 1, 1⟩ := by decide +kernel
  rw [hstats] at h
  exact ⟨hstats, h.total.symm, h.applicable.symm, h.catchAll.symm, h.unresolved.symm,
    h.covered.symm⟩

end EnumCover
