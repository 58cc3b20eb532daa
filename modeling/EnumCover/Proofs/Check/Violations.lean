import EnumCover.Proofs.Coverage.Findings
import EnumCover.Proofs.Traversal.Order

namespace EnumCover

theorem Program.mem_checkedFiles_iff (p : Program) (ignore : List String) (f : SourceFile) :
    f ∈ p.checkedFiles ignore ↔ ∃ package ∈ p.packages, package.initial = true ∧
      f ∈ package.files ∧ Ignore.any ignore f.name = false := by
  simp only [checkedFiles, packagesToCheck, List.mem_filter, List.mem_flatMap, Bool.not_eq_true']
  constructor
  · intro hex
    obtain ⟨⟨package, ⟨hp, hi⟩, hf⟩, hname⟩ := hex
    exact ⟨package, hp, hi, hf, hname⟩
  · intro hex
    obtain ⟨package, hp, hi, hf, hname⟩ := hex
    exact ⟨⟨package, ⟨hp, hi⟩, hf⟩, hname⟩

theorem Program.unmatched_eq (p : Program) (t : NamedType) (cs : List Clause) :
    p.unmatched t cs = (p.constants t).filter fun k =>
      ∀ c ∈ cs, ∀ e ∈ c.list, ¬e.HasCaseValue k.value := by
  apply List.filter_congr
  intro k _
  simp only [Cases.Match, not_exists, not_and]

theorem Program.violation?_eq_some_iff (p : Program) (file : String) (s : Switch)
    (v : Violation) :
    p.violation? file s = some v ↔ file = v.file ∧ s.span.start = v.position ∧
      ∃ t, s.IsOver p t ∧ Cases.AllResolved s.clauses ∧ v.missing ≠ [] ∧
        v.missing = p.unmatched t s.clauses := by
  have hmissing : p.violation? file s = some v ↔
      file = v.file ∧ s.span.start = v.position ∧ p.outcome s = .missing v.missing := by
    obtain ⟨vfile, vposition, vmissing⟩ := v
    unfold violation?
    cases p.outcome s <;> simp
  rw [hmissing, outcome_eq_iff (by simp)]
  simp only [coverage_eq_missing_iff]

/-- A check reports a violation if and only if a file of an initial package that is not ignored
holds, at any depth, a switch over a marked type without a default clause whose cases all have
values, and the constants with other values are the ones reported and not none. -/
theorem mem_violations_iff (p : Program) (memoize : Bool) (ignore : List String) (v : Violation) :
    v ∈ (p.check ⟨memoize, ignore⟩).violations ↔
      ∃ package ∈ p.packages, package.initial = true ∧
      ∃ f ∈ package.files, f.name = v.file ∧ Ignore.any ignore f.name = false ∧
      ∃ s, (Visit.file f).HasSwitch s ∧ s.span.start = v.position ∧
      ∃ tag t, s.tag = some tag ∧ tag.type? = some (.named t) ∧ p.isMarkedType t = true ∧
        (∀ c ∈ s.clauses, c.list ≠ []) ∧
        (∀ c ∈ s.clauses, ∀ e ∈ c.list, ∃ value, e.HasCaseValue value) ∧
        v.missing ≠ [] ∧
        v.missing = (p.constants t).filter fun k =>
          ∀ c ∈ s.clauses, ∀ e ∈ c.list, ¬e.HasCaseValue k.value := by
  have hmem : v ∈ (p.check ⟨memoize, ignore⟩).violations ↔
      ∃ f ∈ p.checkedFiles ignore, ∃ s ∈ f.switches, p.violation? f.name s = some v := by
    rw [p.check_eq]
    simp only [Report.ofFindings, Findings.join_violations, List.flatMap_map,
      p.findings_violations, List.mem_flatMap, List.mem_filterMap]
  rw [hmem]
  constructor
  · intro hex
    obtain ⟨f, hf, s, hs, hv⟩ := hex
    obtain ⟨package, hp, hi, hf, hname⟩ := (p.mem_checkedFiles_iff ignore f).mp hf
    obtain ⟨hfile, hpos, t, ⟨tag, htag, htype, hmark⟩, hall, hne, hms⟩ :=
      (p.violation?_eq_some_iff f.name s v).mp hv
    have hocc := ((Visit.file f).hasSwitch_iff_mem_switches s).mpr hs
    rw [p.unmatched_eq] at hms
    exact ⟨package, hp, hi, f, hf, hfile, hname, s, hocc, hpos, tag, t, htag, htype, hmark,
      fun c hc => (hall c hc).1, fun c hc => (hall c hc).2, hne, hms⟩
  · intro hex
    obtain ⟨package, hp, hi, f, hf, hfile, hname, s, hocc, hpos, tag, t, htag, htype, hmark,
        hdefault, hresolved, hne, hms⟩ := hex
    rw [← p.unmatched_eq] at hms
    refine ⟨f, (p.mem_checkedFiles_iff ignore f).mpr ⟨package, hp, hi, hf, hname⟩, s,
      ((Visit.file f).hasSwitch_iff_mem_switches s).mp hocc, ?_⟩
    exact (p.violation?_eq_some_iff f.name s v).mpr ⟨hfile, hpos, t, ⟨tag, htag, htype, hmark⟩,
      fun c hc => ⟨hdefault c hc, hresolved c hc⟩, hne, hms⟩

def daySwitch (line : Nat) (clauses : List Clause) : Switch :=
  .mk ⟨⟨line, 2⟩, ⟨line, 60⟩⟩ none
    (some (.paren (.ident "d" (some (.named ⟨"p", "Day"⟩)) none))) clauses

/-- The marked type `Day` and a switch of each kind: the first misses a constant, the second matches
both, the third has a default clause and the fourth a case without a value. The last two are not
over `Day`. -/
def everyKind : Program :=
  let monday : Expr := .ident "Monday" (some (.named ⟨"p", "Day"⟩)) (some (.int 0))
  let case (e : Expr) : Clause := .mk default [e] []
  ⟨[⟨"p", true, [], [⟨"a.go", [⟨markerText, ⟨⟨1, 1⟩, ⟨1, 18⟩⟩⟩],
    [.types ⟨⟨2, 1⟩, ⟨2, 13⟩⟩ [⟨"Day", ⟨⟨2, 6⟩, ⟨2, 13⟩⟩⟩],
      .consts ⟨⟨3, 1⟩, ⟨6, 2⟩⟩ [⟨"Monday", ⟨⟨4, 2⟩, ⟨4, 9⟩⟩, .named ⟨"p", "Day"⟩, .int 0⟩,
        ⟨"Tuesday", ⟨⟨5, 2⟩, ⟨5, 9⟩⟩, .named ⟨"p", "Day"⟩, .int 1⟩],
      .func "f" ⟨⟨9, 1⟩, ⟨19, 1⟩⟩ [.switch (daySwitch 10 [case monday]),
        .switch (daySwitch 11 [case (.paren monday), case (.lit .int "0x1" none)]),
        .switch (daySwitch 12 [case monday, .mk default [] []]),
        .switch (daySwitch 13 [case monday, case (.other none none [])]),
        .switch (.mk ⟨⟨14, 2⟩, ⟨14, 60⟩⟩ none none [case monday]),
        .switch (.mk ⟨⟨15, 2⟩, ⟨15, 60⟩⟩ none
          (some (.ident "n" (some (.basic "int")) none)) [])]]⟩]⟩]⟩

/-- The switch that misses `Tuesday` is reported, unless its file is ignored. -/
theorem mem_violations_iff_everyKind :
    let tuesday : Constant := ⟨"Tuesday", ⟨"p", "Day"⟩, .int 1, 1, "a.go", ⟨5, 2⟩⟩
    (⟨"a.go", ⟨10, 2⟩, [tuesday]⟩ : Violation) ∈ (everyKind.check {}).violations ∧
    ∀ v, v ∉ (everyKind.check { ignore := ["a.go"] }).violations := by
  intro tuesday
  constructor
  · refine (mem_violations_iff everyKind false [] _).mpr ⟨_, List.mem_singleton_self _, rfl, _,
      List.mem_singleton_self _, rfl, rfl, daySwitch 10 _,
      (Visit.hasSwitch_iff_mem_switches _ _).mpr List.mem_cons_self, rfl, _, ⟨"p", "Day"⟩, rfl, rfl,
      by decide, ?_⟩
    refine ⟨?_, ?_, List.cons_ne_nil _ _, by decide⟩
    · intro c hc
      obtain rfl := List.mem_singleton.mp hc
      exact List.cons_ne_nil _ _
    · intro c hc e he
      obtain rfl := List.mem_singleton.mp hc
      obtain rfl := List.mem_singleton.mp he
      exact ⟨.int 0, .ident _ _ _⟩
  · intro v hv
    obtain ⟨package, hp, -, f, hf, -, hname, -⟩ := (mem_violations_iff everyKind false _ v).mp hv
    obtain rfl := List.mem_singleton.mp hp
    obtain rfl := List.mem_singleton.mp hf
    revert hname
    decide

theorem Program.violation?_of_tag_eq_none {p : Program} {file : String} {s : Switch}
    (h : s.tag = none) : p.violation? file s = none := by
  rw [violation?, outcome_of_tag_eq_none h]

theorem Program.filterMap_violation?_tagged (p : Program) (file : String) (ss : List Switch) :
    (ss.filter (·.tag.isSome)).filterMap (p.violation? file) =
      ss.filterMap (p.violation? file) := by
  rw [List.filterMap_filter]
  congr 1
  funext s
  cases h : s.tag with
  | none => exact (p.violation?_of_tag_eq_none h).symm
  | some tag => rfl

theorem Program.findings_total (p : Program) (f : SourceFile) :
    (p.findings f).stats.total = f.switches.length := by
  have hone (file : String) (s : Switch) : (p.finding file s).stats.total = 1 := by
    rw [p.finding_stats]
    cases p.outcome s <;> rfl
  rw [Stats.counter_total.findings (P := fun _ => true) hone f, List.countP_true]

/-- The switches that are analysed are those that the traversal meets: every switch of the file
once. A switch is analysed after all switches in its init statement and before those in its tag and
its clauses, and nodes side by side in source order; violations are listed in that order. It is the
order of the traversal if no init statement holds a switch. -/
theorem analysed_once_in_order (f : SourceFile) :
    (∃ as, Visit.Enumerates Visit.initCount (.file f) as f.switches) ∧
    (∃ as, Visit.Enumerates (fun _ => 0) (.file f) as (f.visits.filterMap Visit.switch?)) ∧
    f.switches.Perm (f.visits.filterMap Visit.switch?) ∧
    (∀ (p : Program) (memoize : Bool) (asked : List NamedType),
      (((Lookup.new p memoize).after asked).findFile f).1.stats.total = f.switches.length ∧
      (((Lookup.new p memoize).after asked).findFile f).1.violations =
        (f.switches.filter (·.tag.isSome)).filterMap (p.violation? f.name)) ∧
    ((Visit.file f).InitFree → f.switches = f.visits.filterMap Visit.switch?) := by
  refine ⟨Visit.exists_enumerates Visit.switches_listed (.file f),
    Visit.exists_enumerates Visit.metSwitches_listed (.file f),
    Visit.switches_perm_metSwitches (.file f), ?_, fun h => h.switches_eq⟩
  intro p memoize asked
  obtain ⟨hfound, -⟩ := ((Lookup.answers_new p memoize).after asked).findFile f
  rw [hfound, p.filterMap_violation?_tagged, p.findings_total, p.findings_violations]
  exact ⟨rfl, rfl⟩

-- With a switch in an init statement the two orders differ.
example :
    let inner : Stmt := .switch (.mk ⟨⟨2, 1⟩, ⟨2, 9⟩⟩ none none [])
    let outer : Stmt := .switch (.mk ⟨⟨1, 1⟩, ⟨9, 1⟩⟩ (some inner) none [])
    let f : SourceFile := ⟨"a.go", [], [.func "f" default [outer]]⟩
    f.switches.map (·.span.start.line) = [2, 1] ∧
      (f.visits.filterMap Visit.switch?).map (·.span.start.line) = [1, 2] := by
  decide

/-- A switch with a call in its init statement and a switch in a function of its tag. -/
def nestedInTag : SourceFile :=
  ⟨"a.go", [], [.func "f" default [.switch (.mk ⟨⟨1, 1⟩, ⟨9, 1⟩⟩
    (some (.expr (.other none none []))) (some (.other none none [.funcLit
      [.switch (.mk ⟨⟨2, 1⟩, ⟨3, 1⟩⟩ none none [])]])) [])]]⟩

theorem analysed_once_in_order_nestedInTag :
    (Visit.file nestedInTag).InitFree ∧
      nestedInTag.switches = nestedInTag.visits.filterMap Visit.switch? := by
  have h : (Visit.file nestedInTag).InitFree := by
    intro s hs init hinit inner hinner
    rw [Visit.hasSwitch_iff_mem_switches] at hs hinner
    have hinits : s.init = none ∨ s.init = some (.expr (.other none none [])) := by
      rcases List.mem_cons.mp hs with rfl | hs
      · exact .inr rfl
      · obtain rfl := List.mem_singleton.mp hs
        exact .inl rfl
    rcases hinits with he | he
    · rw [he] at hinit
      cases hinit
    · rw [he] at hinit
      obtain rfl := Option.some.inj hinit
      cases hinner
  exact ⟨h, (analysed_once_in_order nestedInTag).2.2.2.2 h⟩

end EnumCover
