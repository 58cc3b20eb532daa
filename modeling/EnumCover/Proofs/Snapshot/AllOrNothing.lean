import EnumCover.Proofs.Snapshot.Searching

namespace EnumCover

namespace FileSystem

variable {fs : FileSystem} {root : String} {roots files found : List String}

/-- The snapshots that a root stands for. A file stands for itself, whatever its name is, and a
directory for the snapshots that are found below it, in strict order. -/
inductive Yields (fs : FileSystem) (root : String) : List String → Prop
  | file {bytes : ByteArray} (hroot : fs.resolve root = .ok (.file bytes)) : Yields fs root [root]
  | directory {entries : List (String × FileEntry)} {found : List String}
    (hroot : fs.resolve root = .ok (.dir entries))
    (hmem : ∀ p, p ∈ found ↔ ∃ names, fs.FoundBelow root names ∧ p = Path.inside root names)
    (hsorted : found.Pairwise Path.Precedes) : Yields fs root found

/-- The snapshots of some roots: root by root, and of all spellings of a path the first. -/
def YieldsAll (fs : FileSystem) (roots files : List String) : Prop :=
  ∃ found, List.Forall₂ fs.Yields roots found ∧ files = Assembly.firstSpellings found.flatten

theorem yields_iff (hfs : fs.IsProper) :
    fs.Yields root found ↔ fs.snapshotsUnder root = .ok found := by
  constructor
  · intro h
    cases h with
    | file hroot => rw [snapshotsUnder, hroot]
    | directory hroot hmem hsorted =>
      -- members and strict order leave one list only
      obtain ⟨found', hok, hmem', hsorted'⟩ := exists_found hfs hroot
      have hsame : found = found' := Path.eq_of_pairwise_precedes hsorted hsorted' fun p => by
        rw [hmem, hmem']
      rw [hok, hsame]
  · intro h
    obtain ⟨entry, hroot⟩ := resolve_of_snapshotsUnder h
    cases entry with
    | file bytes =>
      rw [snapshotsUnder, hroot] at h
      cases h
      exact .file hroot
    | dir entries =>
      obtain ⟨found', hok, hmem, hsorted⟩ := exists_found hfs hroot
      obtain rfl := Except.ok.inj (h.symm.trans hok)
      exact .directory hroot hmem hsorted

theorem yieldsAll_iff (hfs : fs.IsProper) : fs.YieldsAll roots files ↔ fs.Gathers roots files := by
  apply exists_congr
  intro found
  apply and_congr_left
  intro _
  have hroot (root : String) (l : List String) : fs.Yields root l ↔
      fs.snapshotsUnder root = .ok l ∧ l.Pairwise (Path.le · ·) := by
    rw [yields_iff hfs, iff_self_and]
    exact snapshotsUnder_sorted
  exact ⟨fun h => h.imp fun root l => (hroot root l).mp,
    fun h => h.imp fun root l => (hroot root l).mpr⟩

theorem YieldsAll.present (h : fs.YieldsAll roots files) :
    ∀ root ∈ roots, ∃ entry, fs.resolve root = .ok entry := by
  obtain ⟨found, hfound, -⟩ := h
  intro root hroot
  induction hfound with
  | nil => cases hroot
  | cons hl _ ih =>
    rcases List.mem_cons.mp hroot with rfl | hroot
    · cases hl with
      | file hroot => exact ⟨_, hroot⟩
      | directory hroot => exact ⟨_, hroot⟩
    · exact ih hroot

/-- Why nothing is loaded from some roots. Only if there are roots and all of them are there do
their files count. -/
inductive LoadFailure (fs : FileSystem) (roots : List String) : Failure → Prop
  | noRoots (h : roots = []) : LoadFailure fs roots .noInputs
  /-- The first root that leads nowhere. -/
  | missingRoot {before after : List String} {root : String} {e : FileError}
    (hroots : roots = before ++ root :: after)
    (hbefore : ∀ r ∈ before, ∃ entry, fs.resolve r = .ok entry)
    (hroot : fs.resolve root = .error e) : LoadFailure fs roots (.file root e)
  | noFiles (hroots : roots ≠ []) (hall : ∀ root ∈ roots, ∃ entry, fs.resolve root = .ok entry)
    (hfiles : fs.YieldsAll roots []) : LoadFailure fs roots (.noSnapshots roots)
  | badFiles {files : List String} {f : Failure} (hroots : roots ≠ [])
    (hall : ∀ root ∈ roots, ∃ entry, fs.resolve root = .ok entry)
    (hfiles : fs.YieldsAll roots files) (hfault : fs.FilesFault files f) : LoadFailure fs roots f

theorem loadFailure_of_assemble (hfs : fs.IsProper) {f : Failure}
    (h : fs.assemble roots = .error f) : fs.LoadFailure roots f := by
  rcases assemble_error h with
    ⟨hroots, rfl⟩ | ⟨hroots, hall | ⟨hgather, rfl⟩ | ⟨files, hgather, hfault⟩⟩
  · exact .noRoots hroots
  · obtain ⟨before, root, after, e, hsplit, hbefore, hroot, rfl⟩ := allSnapshots_error hall
    exact .missingRoot hsplit hbefore hroot
  · have hfiles := (yieldsAll_iff hfs).mpr hgather
    exact .noFiles hroots hfiles.present hfiles
  · have hfiles := (yieldsAll_iff hfs).mpr hgather
    exact .badFiles hroots hfiles.present hfiles hfault

end FileSystem

/-- A program is loaded if and only if there are roots, all of them are there, files are found below
them, all files decode, no package path comes twice and no package has diagnostics. It then holds
the packages of the files in order and finds each of them by its path. If nothing is loaded, the
failure is that of the first condition that does not hold. -/
theorem loading_all_or_nothing (fs : FileSystem) (hfs : fs.IsProper) (roots : List String) :
    (∀ p, fs.assemble roots = .ok p ↔
      roots ≠ [] ∧ (∀ root ∈ roots, ∃ entry, fs.resolve root = .ok entry) ∧
      ∃ files programs, fs.YieldsAll roots files ∧ files ≠ [] ∧
        List.Forall₂ fs.Decodes files programs ∧
        p.packages = programs.flatMap (·.packages) ∧ (p.packages.map (·.path)).Nodup ∧
        ∀ k ∈ p.packages, k.diagnostics = []) ∧
    (∀ p, fs.assemble roots = .ok p → ∀ k ∈ p.packages, p.package? k.path = some k) ∧
    ∀ f, fs.assemble roots = .error f → fs.LoadFailure roots f := by
  refine ⟨fun p => ?_, fun p h k hk => ?_, fun f => FileSystem.loadFailure_of_assemble hfs⟩
  · simp only [FileSystem.assemble_eq_ok_iff, FileSystem.yieldsAll_iff hfs]
    constructor
    · rintro ⟨hroots, files, programs, hgather, hrest⟩
      have hfiles := (FileSystem.yieldsAll_iff hfs).mpr hgather
      exact ⟨hroots, hfiles.present, files, programs, hgather, hrest⟩
    · rintro ⟨hroots, -, hrest⟩
      exact ⟨hroots, hrest⟩
  · obtain ⟨-, files, programs, -, -, -, -, hnodup, -⟩ := FileSystem.assemble_eq_ok_iff.mp h
    exact Program.package?_of_nodup hnodup hk

/-- A file that two roots lead to is loaded once, under the spelling that comes first. With a root
that is not there nothing is loaded, although the file is. -/
theorem loading_all_or_nothing_respelled :
    oneSnapshot.IsProper ∧
    oneSnapshot.YieldsAll ["a", "a//x.pgraph.json"] ["a/x.pgraph.json"] ∧
    oneSnapshot.assemble ["a", "a//x.pgraph.json"] = .ok ⟨[⟨"p", true, [], []⟩]⟩ ∧
    oneSnapshot.assemble ["a", "b"] = .error (.file "b" .notFound) := by
  have hfs : oneSnapshot.IsProper := by
    refine ⟨oneSnapshot.wellNamed, ?_⟩
    simp [oneSnapshot, FileEntry.namedOnce_dir_iff, FileEntry.namedOnce_file]
  have hfiles : oneSnapshot.YieldsAll ["a", "a//x.pgraph.json"] ["a/x.pgraph.json"] := by
    refine ⟨[["a/x.pgraph.json"], ["a//x.pgraph.json"]], .cons ?_ (.cons ?_ .nil), ?_⟩
    · exact (FileSystem.yields_iff hfs).mpr (by decide +kernel)
    · exact (FileSystem.yields_iff hfs).mpr (by decide +kernel)
    · decide +kernel
  have hdecodes : oneSnapshot.Decodes "a/x.pgraph.json" ⟨[⟨"p", true, [], []⟩]⟩ :=
    .of_text rfl oneSnapshot.ofSnapshot_eq
  have hnone : oneSnapshot.resolve "b" = .error .notFound := rfl
  have hmissing : ¬∃ entry, oneSnapshot.resolve "b" = .ok entry := by simp [hnone]
  refine ⟨hfs, hfiles, ?_, ?_⟩
  · obtain ⟨hok, -, -⟩ := loading_all_or_nothing oneSnapshot hfs ["a", "a//x.pgraph.json"]
    exact (hok _).mpr ⟨List.cons_ne_nil _ _, FileSystem.YieldsAll.present hfiles, _,
      [⟨[⟨"p", true, [], []⟩]⟩], hfiles, List.cons_ne_nil _ _, .cons hdecodes .nil, rfl, by decide,
      by decide⟩
  · obtain ⟨hok, -, herror⟩ := loading_all_or_nothing oneSnapshot hfs ["a", "b"]
    cases h : oneSnapshot.assemble ["a", "b"] with
    | ok p =>
      obtain ⟨-, hall, -⟩ := (hok p).mp h
      exact absurd (hall "b" (by decide)) hmissing
    | error f =>
      cases herror f h with
      | noRoots h => cases h
      | noFiles _ hall => exact absurd (hall "b" (by decide)) hmissing
      | badFiles _ hall => exact absurd (hall "b" (by decide)) hmissing
      | @missingRoot before after root e hroots hbefore hroot =>
        -- the root `a` is there, so `b` is the first that is not
        rcases before with _ | ⟨first, _ | ⟨second, before⟩⟩
        · cases hroots
          cases hroot
        · cases hroots
          rw [Except.error.inj (hnone.symm.trans hroot)]
        · simp at hroots

end EnumCover
