import EnumCover.Command.Run
import EnumCover.Proofs.Command.Confinement
import EnumCover.Proofs.Files.Directories
import EnumCover.Proofs.Files.Writing
import EnumCover.Proofs.Snapshot.Overlap

namespace EnumCover

namespace Run

variable {w : Wording} {fs : FileSystem} {a : Arguments} {p : Program}

/-- The directory of the configuration, which the paths in a report are relative to. -/
def baseOf (fs : FileSystem) (a : Arguments) : String := a.baseDir.getD fs.workingPath

def configPath (fs : FileSystem) (a : Arguments) : String :=
  Path.join (baseOf fs a) Config.fileName

/-- The configuration that counts: one that cannot be used is passed over. -/
def usedConfig (fs : FileSystem) (a : Arguments) : Option Config :=
  match fs.readConfig (baseOf fs a) with
  | .ok c => c
  | .error _ => none

def warning (w : Wording) (fs : FileSystem) (a : Arguments) : String :=
  match fs.readConfig (baseOf fs a) with
  | .ok _ => ""
  | .error f => "[WARN] config load failed: " ++ f.message w ++ "\n"

def reportText (fs : FileSystem) (a : Arguments) (p : Program) : String :=
  let settings := Settings.combine a (usedConfig fs a)
  (p.check ⟨settings.memoize, settings.ignore⟩).render settings.json (baseOf fs a)

/-- All that a run needs before it makes a report on a program. A configuration that is absent or
malformed is no obstacle. -/
structure Ready (fs : FileSystem) (a : Arguments) (p : Program) : Prop where
  config : fs.has (configPath fs a) = false ∨ ∃ text, fs.readText (configPath fs a) = .ok text
  output : ∀ path, a.output = some path → OutputPath.check path = .ok path
  program : fs.assemble a.paths = .ok p

theorem isRecoverable_readConfig_iff {dir : String} :
    (∀ f, fs.readConfig dir = .error f → f.isRecoverable = true) ↔
      fs.has (Path.join dir Config.fileName) = false ∨
        ∃ text, fs.readText (Path.join dir Config.fileName) = .ok text := by
  simp only [FileSystem.readConfig]
  cases fs.has (Path.join dir Config.fileName) with
  | false => simp
  | true =>
    cases fs.readText (Path.join dir Config.fileName) with
    | error e => simp [Failure.isRecoverable]
    | ok text => cases hparse : Config.parse text <;> simp [hparse, Failure.isRecoverable]

theorem configOrWarning_eq_ok_iff {r : Option Config × String} :
    configOrWarning w fs (baseOf fs a) = .ok r ↔
      (fs.has (configPath fs a) = false ∨ ∃ text, fs.readText (configPath fs a) = .ok text) ∧
        r = (usedConfig fs a, warning w fs a) := by
  unfold configOrWarning usedConfig warning configPath
  rw [← isRecoverable_readConfig_iff, @eq_comm _ r]
  cases fs.readConfig (baseOf fs a) with
  | ok c => simp
  | error f => cases hf : f.isRecoverable <;> simp [hf]

theorem mapM_check_eq_ok_iff {output out : Option String} :
    output.mapM OutputPath.check = .ok out ↔
      out = output ∧ ∀ path, output = some path → OutputPath.check path = .ok path := by
  cases output with
  | none => simp [pure, Except.pure, eq_comm]
  | some path =>
    cases hcheck : OutputPath.check path with
    | error fault => simp [Functor.map, Except.map, hcheck]
    | ok checked =>
      obtain ⟨rfl, -⟩ := OutputPath.check_eq_ok_iff.mp hcheck
      simp [Functor.map, Except.map, hcheck, eq_comm]

theorem withArguments_of_ready (h : Ready fs a p) : withArguments w fs a =
    deliver fs (warning w fs a) a.output (reportText fs a p) := by
  have hconfig : configOrWarning w fs (a.baseDir.getD fs.workingPath) =
      .ok (usedConfig fs a, warning w fs a) := configOrWarning_eq_ok_iff.mpr ⟨h.config, rfl⟩
  have houtput := mapM_check_eq_ok_iff.mpr ⟨rfl, h.output⟩
  unfold withArguments
  simp only [hconfig, houtput, h.program]
  rfl

theorem withArguments_of_not_ready (h : ∀ p, ¬Ready fs a p) :
    ∃ stderr, withArguments w fs a = { exitCode := 1, stderr, files := fs } := by
  unfold withArguments
  dsimp only
  split
  · exact ⟨_, rfl⟩
  next config warning hconfig =>
  split
  · exact ⟨_, rfl⟩
  next output houtput =>
  split
  · exact ⟨_, rfl⟩
  next p hp =>
  have hready := (configOrWarning_eq_ok_iff (a := a)).mp hconfig
  exact absurd ⟨hready.1, (mapM_check_eq_ok_iff.mp houtput).2, hp⟩ (h p)

/-- The three ways in which a run can end. -/
theorem withArguments_cases (w : Wording) (a : Arguments)
    (hworking : ∀ n ∈ fs.working, Path.IsName n) :
    -- Something that the run needs is missing, or its report cannot be written.
    (¬((∃ p, Ready fs a p) ∧ ∀ path, a.output = some path → fs.CanWrite path) ∧
      ∃ stderr, withArguments w fs a = { exitCode := 1, stderr, files := fs }) ∨
    ∃ p, Ready fs a p ∧
      -- The report is printed.
      ((a.output = none ∧
        withArguments w fs a =
          { exitCode := 0, stderr := warning w fs a ++ reportText fs a p, files := fs }) ∨
      -- The report is written.
      ∃ path fs', a.output = some path ∧ fs.CanWrite path ∧
        fs.writeFile path (reportText fs a p).toUTF8 = .ok fs' ∧
        withArguments w fs a = { exitCode := 0, stderr := warning w fs a, files := fs' }) := by
  by_cases hready : ∃ p, Ready fs a p
  · obtain ⟨p, hp⟩ := hready
    rw [withArguments_of_ready hp]
    cases houtput : a.output with
    | none => exact .inr ⟨p, hp, .inl ⟨rfl, rfl⟩⟩
    | some path =>
      obtain ⟨-, -, hrelative, hparent, -⟩ :=
        OutputPath.check_eq_ok_iff.mp (hp.output path houtput)
      cases hfile : fs.writeFile path (reportText fs a p).toUTF8 with
      | ok fs' =>
        have hcan := ((FileSystem.writeFile_eq_ok_iff hworking hrelative hparent).mp hfile).1
        exact .inr ⟨p, hp, .inr ⟨path, fs', rfl, hcan, hfile, by simp only [deliver, hfile]⟩⟩
      | error e =>
        refine .inl ⟨?_, _, by simp only [deliver, hfile]; rfl⟩
        rintro ⟨-, hcan⟩
        have hok := hfile.symm.trans
          ((FileSystem.writeFile_eq_ok_iff hworking hrelative hparent).mpr ⟨hcan path rfl, rfl⟩)
        cases hok
  · exact .inl ⟨fun h => hready h.1, withArguments_of_not_ready (not_exists.mp hready)⟩

theorem isProper_withArguments (w : Wording) (a : Arguments) (hfs : fs.IsProper) :
    (withArguments w fs a).files.IsProper := by
  rcases withArguments_cases w a hfs.wellNamed.2 with
    ⟨-, stderr, hrun⟩ | ⟨p, hp, ⟨-, hrun⟩ | ⟨path, fs', hsome, -, hfile, hrun⟩⟩
  · rwa [hrun]
  · rwa [hrun]
  · obtain ⟨-, -, hrelative, hparent, -⟩ := OutputPath.check_eq_ok_iff.mp (hp.output path hsome)
    rw [hrun]
    exact hfs.writeFile hrelative hparent hfile

end Run

theorem isProper_run (w : Wording) {fs : FileSystem} (args : List String) (hfs : fs.IsProper) :
    (run w fs args).files.IsProper := by
  unfold run
  split
  · exact hfs
  · exact hfs
  · exact hfs
  · exact Run.isProper_withArguments w _ hfs

namespace Request

end Request

namespace Arguments

end Arguments

/-- A snapshot of a file with the marked type `Day` and a switch that misses `Tuesday`. -/
def tuesdaySnapshot : Json :=
  let span (line start stop : Int) : Json :=
    .arr [.arr [.int line, .int start], .arr [.int line, .int stop]]
  let day (name : String) (line value : Int) : Json :=
    .arr [.str name, span line 2 9, .str "p.Day", .int value]
  let monday : Json := .arr [.str "ident", .str "Monday", .str "p.Day", .int 0]
  .obj [("packages", .arr [.obj [("path", .str "p"), ("files", .arr [.arr [.str "a.go",
    .arr [.arr [.str markerText, span 1 1 18]],
    .arr [.arr [.str "type", span 2 1 13, .arr [.arr [.str "Day", span 2 6 13]]],
      .arr [.str "const", span 3 1 30, .arr [day "Monday" 4 0, day "Tuesday" 5 1]],
      .arr [.str "func", .str "f", span 6 1 60, .arr [.arr [.str "switch", span 7 2 50, .null,
        .arr [.str "ident", .str "d", .str "p.Day", .null],
        .arr [.arr [span 8 2 20, .arr [monday]]]]]]]]])]])]

def tuesdaySources : FileSystem :=
  ⟨.dir [("gen", .dir [("x.pgraph.json", .file tuesdaySnapshot.compact.toUTF8)])], []⟩

def tuesdayProgram : Program :=
  let day : TypeRef := .named ⟨"p", "Day"⟩
  ⟨[⟨"p", true, [], [⟨"a.go", [⟨markerText, ⟨⟨1, 1⟩, ⟨1, 18⟩⟩⟩],
    [.types ⟨⟨2, 1⟩, ⟨2, 13⟩⟩ [⟨"Day", ⟨⟨2, 6⟩, ⟨2, 13⟩⟩⟩],
      .consts ⟨⟨3, 1⟩, ⟨3, 30⟩⟩ [⟨"Monday", ⟨⟨4, 2⟩, ⟨4, 9⟩⟩, day, .int 0⟩,
        ⟨"Tuesday", ⟨⟨5, 2⟩, ⟨5, 9⟩⟩, day, .int 1⟩],
      .func "f" ⟨⟨6, 1⟩, ⟨6, 60⟩⟩ [.switch (.mk ⟨⟨7, 2⟩, ⟨7, 50⟩⟩ none
        (some (.ident "d" (some day) none))
        [.mk ⟨⟨8, 2⟩, ⟨8, 20⟩⟩ [.ident "Monday" (some day) (some (.int 0))] []])]]⟩]⟩]⟩

theorem tuesdaySources.assemble_eq : tuesdaySources.assemble ["gen"] = .ok tuesdayProgram := by
  have htext : Program.ofSnapshot tuesdaySnapshot.compact = .value tuesdayProgram := by
    refine (Program.ofSnapshot_compact_iff ?_).mpr ?_
    · simp [tuesdaySnapshot, Json.IsPlain, Json.ArePlain, Json.MembersArePlain, Json.IsWord, twoPow]
    · rfl
  have hdecodes : tuesdaySources.Decodes "gen/x.pgraph.json" tuesdayProgram := .of_text rfl htext
  have hall : tuesdaySources.allSnapshots ["gen"] = .ok ["gen/x.pgraph.json"] := by decide +kernel
  have hfiles : Assembly.dedupe [] ["gen/x.pgraph.json"] = ["gen/x.pgraph.json"] := by
    decide +kernel
  have hgather := FileSystem.gathers_of_allSnapshots hall
  rw [hfiles] at hgather
  exact FileSystem.assemble_eq_ok_iff.mpr ⟨List.cons_ne_nil _ _, _, [tuesdayProgram], hgather,
    List.cons_ne_nil _ _, .cons hdecodes .nil, rfl, by decide, by decide⟩

end EnumCover
