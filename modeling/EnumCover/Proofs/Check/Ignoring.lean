import EnumCover.Proofs.Check.Agreement
import EnumCover.Proofs.Check.Violations

namespace EnumCover

namespace Ignore

/-- How a pattern hides a name. A star at its end comes before one at its start. -/
inductive Hides (name : List Char) : List Char → Prop where
  | starAtEnd {rest : List Char} (h : rest <+: name) : Hides name (rest ++ ['*'])
  | starAtStart {rest : List Char} (hend : ¬['*'] <:+ '*' :: rest) (h : rest <:+ name) :
    Hides name ('*' :: rest)
  | anywhere {pattern : List Char} (hend : ¬['*'] <:+ pattern) (hstart : ¬['*'] <+: pattern)
    (h : pattern <:+: name) : Hides name pattern

def Hidden (patterns : List String) (name : String) : Prop :=
  ∃ pattern ∈ patterns, Hides name.toList pattern.toList

variable {name : List Char}

theorem hides_concat_iff (rest : List Char) : Hides name (rest ++ ['*']) ↔ rest <+: name := by
  constructor
  · intro h
    generalize hp : rest ++ ['*'] = pattern at h
    cases h with
    | starAtEnd h =>
      obtain rfl := List.append_cancel_right hp
      exact h
    | starAtStart hend h => exact absurd ⟨rest, hp⟩ hend
    | anywhere hend hstart h => exact absurd ⟨rest, hp⟩ hend
  · exact .starAtEnd

theorem hides_cons_iff {rest : List Char} (hend : ¬['*'] <:+ '*' :: rest) :
    Hides name ('*' :: rest) ↔ rest <:+ name := by
  constructor
  · intro h
    generalize hp : '*' :: rest = pattern at h
    cases h with
    | @starAtEnd front h => exact absurd ⟨front, hp.symm⟩ hend
    | starAtStart _ h =>
      obtain ⟨-, rfl⟩ := List.cons.inj hp
      exact h
    | anywhere _ hstart h => exact absurd ⟨rest, hp⟩ hstart
  · exact .starAtStart hend

theorem hides_iff_infix {pattern : List Char} (hend : ¬['*'] <:+ pattern)
    (hstart : ¬['*'] <+: pattern) : Hides name pattern ↔ pattern <:+: name := by
  constructor
  · intro h
    cases h with
    | @starAtEnd front h => exact absurd ⟨front, rfl⟩ hend
    | @starAtStart rest _ h => exact absurd ⟨rest, rfl⟩ hstart
    | anywhere _ _ h => exact h
  · exact .anywhere hend hstart

theorem applies_iff (pattern name : String) :
    applies pattern name = true ↔ Hides name.toList pattern.toList := by
  unfold applies
  generalize pattern.toList = p
  by_cases hend : p.getLast? = some '*'
  · obtain ⟨rest, rfl⟩ := List.getLast?_eq_some_iff.mp hend
    rw [if_pos hend, List.dropLast_concat, List.isPrefixOf_iff_prefix, hides_concat_iff]
  · have hlast : ¬['*'] <:+ p := by
      intro hsuffix
      obtain ⟨rest, rfl⟩ := hsuffix
      exact hend List.getLast?_concat
    rw [if_neg hend]
    by_cases hstart : p.head? = some '*'
    · obtain ⟨rest, rfl⟩ := List.head?_eq_some_iff.mp hstart
      rw [if_pos hstart, List.tail_cons, List.isSuffixOf_iff_suffix, hides_cons_iff hlast]
    · have hfirst : ¬['*'] <+: p := by
        intro hprefix
        obtain ⟨rest, rfl⟩ := hprefix
        exact hstart rfl
      rw [if_neg hstart, Text.occursIn_iff, hides_iff_infix hlast hfirst]

theorem any_iff (patterns : List String) (name : String) :
    any patterns name = true ↔ Hidden patterns name := by
  simp only [any, List.any_eq_true, applies_iff, Hidden]

instance (patterns : List String) (name : String) : Decidable (Hidden patterns name) :=
  decidable_of_iff _ (any_iff patterns name)

theorem hidden_append_iff (a b : List String) (name : String) :
    Hidden (a ++ b) name ↔ Hidden a name ∨ Hidden b name := by
  simp only [Hidden, List.mem_append, or_and_right, exists_or]

theorem hidden_perm {a b : List String} (h : a.Perm b) (name : String) :
    Hidden a name ↔ Hidden b name := by
  simp only [Hidden, h.mem_iff]

end Ignore

namespace Program

variable (p : Program)

/-- All files of the initial packages. -/
def initialFiles : List SourceFile := p.packagesToCheck.flatMap (·.files)

theorem checkedFiles_eq (ignore : List String) :
    p.checkedFiles ignore = p.initialFiles.filter fun f => ¬Ignore.Hidden ignore f.name := by
  apply List.filter_congr
  intro f _
  rw [Bool.eq_iff_iff, decide_eq_true_eq, Bool.not_eq_true', ← Ignore.any_iff, Bool.not_eq_true]

theorem checkedFiles_append_ignore (a b : List String) :
    p.checkedFiles (a ++ b) = (p.checkedFiles a).filter fun f => ¬Ignore.Hidden b f.name := by
  rw [checkedFiles_eq, checkedFiles_eq, List.filter_filter]
  apply List.filter_congr
  intro f _
  simp only [Ignore.hidden_append_iff, not_or, Bool.decide_and, Bool.and_comm]

theorem checkedFiles_perm_ignore {a b : List String} (h : a.Perm b) :
    p.checkedFiles a = p.checkedFiles b := by
  rw [checkedFiles_eq, checkedFiles_eq]
  apply List.filter_congr
  intro f _
  rw [Bool.eq_iff_iff, decide_eq_true_eq, decide_eq_true_eq, Ignore.hidden_perm h]

theorem file_of_mem_findings {f : SourceFile} {v : Violation}
    (hv : v ∈ (p.findings f).violations) : v.file = f.name := by
  rw [findings_violations, List.mem_filterMap] at hv
  obtain ⟨s, -, hs⟩ := hv
  exact ((p.violation?_eq_some_iff f.name s v).mp hs).1.symm

/-- Violations can be told apart by their files, so dropping files is dropping their violations. -/
theorem violations_filter (keep : String → Bool) (fs : List SourceFile) :
    (fs.filter (keep ·.name)).flatMap (fun f => (p.findings f).violations) =
      (fs.flatMap fun f => (p.findings f).violations).filter (keep ·.file) := by
  induction fs with
  | nil => rfl
  | cons f fs ih =>
    rw [List.flatMap_cons, List.filter_append, ← ih]
    cases hkeep : keep f.name with
    | true =>
      have hall : (p.findings f).violations.filter (keep ·.file) = (p.findings f).violations := by
        apply List.filter_eq_self.mpr
        intro v hv
        rw [p.file_of_mem_findings hv, hkeep]
      rw [List.filter_cons, if_pos hkeep, List.flatMap_cons, hall]
    | false =>
      have hnone : (p.findings f).violations.filter (keep ·.file) = [] := by
        apply List.filter_eq_nil_iff.mpr
        intro v hv
        rw [p.file_of_mem_findings hv, hkeep]
        exact Bool.false_ne_true
      rw [List.filter_cons, if_neg (Bool.not_eq_true _ ▸ hkeep), hnone, List.nil_append]

theorem sum_stats_filter (keep : SourceFile → Bool) (fs : List SourceFile) :
    (fs.map fun f => (p.findings f).stats).sum =
      ((fs.filter keep).map fun f => (p.findings f).stats).sum +
        ((fs.filter fun f => !keep f).map fun f => (p.findings f).stats).sum := by
  have hperm := (List.filter_append_perm keep fs).map fun f => (p.findings f).stats
  rw [← hperm.sum_eq, List.map_append, List.sum_append]

end Program

/-- A check with more patterns reports what the check with fewer reports about the files that the
added ones do not hide, in the same order, and its counts are smaller by those of the files they
hide. Every file that is left is judged with all declarations of the program, those in hidden files
as well, and patterns may come in any order. -/
theorem ignoring_hides_only_own_findings (p : Program) (memoize : Bool) (a b : List String) :
    (p.check ⟨memoize, a ++ b⟩).violations =
      (p.check ⟨memoize, a⟩).violations.filter (fun v => ¬Ignore.Hidden b v.file) ∧
    (∀ asked : SourceFile → List NamedType,
      (p.check ⟨memoize, a⟩).stats = (p.check ⟨memoize, a ++ b⟩).stats +
        ((p.initialFiles.filter fun f => ¬Ignore.Hidden a f.name ∧ Ignore.Hidden b f.name).map
          fun f => (((Lookup.new p memoize).after (asked f)).findFile f).1.stats).sum) ∧
    (∀ asked : SourceFile → List NamedType,
      p.check ⟨memoize, a⟩ = .ofFindings
        ((p.initialFiles.filter fun f => ¬Ignore.Hidden a f.name).map
          fun f => (((Lookup.new p memoize).after (asked f)).findFile f).1)) ∧
    ∀ a', a'.Perm a → p.check ⟨memoize, a'⟩ = p.check ⟨memoize, a⟩ := by
  have hfile (f : SourceFile) (asked : List NamedType) :
      (((Lookup.new p memoize).after asked).findFile f).1 = p.findings f :=
    (((Lookup.answers_new p memoize).after asked).findFile f).1
  have hadded : (p.checkedFiles a).filter (fun f => Ignore.Hidden b f.name) =
      p.initialFiles.filter fun f => ¬Ignore.Hidden a f.name ∧ Ignore.Hidden b f.name := by
    rw [p.checkedFiles_eq, List.filter_filter]
    apply List.filter_congr
    intro f _
    rw [Bool.decide_and, Bool.and_comm]
  refine ⟨?_, ?_, ?_, ?_⟩
  · simp only [p.check_eq, Report.ofFindings, Findings.join_violations, List.flatMap_map,
      p.checkedFiles_append_ignore]
    exact p.violations_filter (fun name => ¬Ignore.Hidden b name) (p.checkedFiles a)
  · intro asked
    have hsplit := p.sum_stats_filter (fun f => ¬Ignore.Hidden b f.name) (p.checkedFiles a)
    simp only [decide_not, Bool.not_not, hadded] at hsplit
    simp only [p.check_eq, Report.ofFindings, Findings.join_stats, List.map_map, hfile,
      p.checkedFiles_append_ignore, Function.comp_def, decide_not]
    exact hsplit
  · intro asked
    simp only [p.check_eq, p.checkedFiles_eq, hfile]
  · intro a' hperm
    rw [p.check_eq, p.check_eq, p.checkedFiles_perm_ignore hperm]

def switchOverDay (name : String) (decls : List Decl) (comments : List Comment) : SourceFile :=
  ⟨name, comments, decls ++ [.func "f" ⟨⟨7, 1⟩, ⟨9, 2⟩⟩ [.switch (.mk ⟨⟨8, 2⟩, ⟨8, 15⟩⟩ none
    (some (.ident "d" (some (.named ⟨"p", "Day"⟩)) none)) [])]]⟩

/-- A package that declares a marked type in the first of three files. -/
def declaredApart : Program :=
  ⟨[⟨"p", true, [], [
    switchOverDay "types.go" [.types ⟨⟨2, 1⟩, ⟨2, 13⟩⟩ [⟨"Day", ⟨⟨2, 6⟩, ⟨2, 13⟩⟩⟩],
      .consts ⟨⟨4, 1⟩, ⟨4, 20⟩⟩ [⟨"Monday", ⟨⟨4, 7⟩, ⟨4, 20⟩⟩, .named ⟨"p", "Day"⟩, .int 0⟩]]
      [⟨markerText, ⟨⟨1, 1⟩, ⟨1, 18⟩⟩⟩],
    switchOverDay "use.go" [] [],
    switchOverDay "gen/use.go" [] []]⟩]⟩

/-- The file with the declarations is hidden, and they still count for the file that is left. -/
theorem ignoring_hides_only_own_findings_declarations :
    (declaredApart.check ⟨false, ["gen/*", "types"]⟩).violations =
      (declaredApart.check ⟨false, ["gen/*"]⟩).violations.filter
        (fun v => ¬Ignore.Hidden ["types"] v.file) ∧
    declaredApart.check ⟨false, ["types", "gen/*"]⟩ =
      declaredApart.check ⟨false, ["gen/*", "types"]⟩ ∧
    (declaredApart.check ⟨false, ["gen/*"]⟩).violations.map (·.file) = ["types.go", "use.go"] ∧
    (declaredApart.check ⟨false, ["gen/*", "types"]⟩).violations.map (fun v => (v.file, v.names)) =
      [("use.go", ["Monday"])] := by
  have hadded := ignoring_hides_only_own_findings declaredApart false ["gen/*"] ["types"]
  have horder := ignoring_hides_only_own_findings declaredApart false ["gen/*", "types"] []
  exact ⟨hadded.1, horder.2.2.2 ["types", "gen/*"] (.swap _ _ _), by decide +kernel,
    by decide +kernel⟩

end EnumCover
