import Mathlib.Data.List.Sort
import EnumCover.Proofs.Files.Directories
import EnumCover.Proofs.Snapshot.Overlap

namespace EnumCover

namespace Path

/-- The path to the end of some names below a directory. -/
def inside (dir : String) (names : List String) : String := names.foldl join dir

variable {dir : String} {names : List String}

theorem inside_cons (dir n : String) (names : List String) :
    inside dir (n :: names) = inside (join dir n) names := rfl

theorem prefix_join (hdir : dir ≠ "") (n : String) : dir.toList <+: (join dir n).toList := by
  have hne : dir.toList ≠ [] := fun he => hdir (String.toList_injective (he.trans rfl))
  unfold join
  rw [if_neg hne]
  split <;> simp

theorem prefix_inside (hdir : dir ≠ "") (names : List String) :
    dir.toList <+: (inside dir names).toList := by
  induction names generalizing dir with
  | nil => exact List.prefix_rfl
  | cons n names ih =>
    have hjoin := prefix_join hdir n
    refine hjoin.trans (ih fun he => hdir ?_)
    rw [he] at hjoin
    exact String.toList_injective (List.prefix_nil.mp hjoin)

theorem components_inside (hdir : dir ≠ "") (hnames : ∀ n ∈ names, IsName n) :
    components (inside dir names) = components dir ++ names.map .name := by
  induction names generalizing dir with
  | nil => simp [inside]
  | cons n names ih =>
    rw [List.forall_mem_cons] at hnames
    rw [inside_cons, ih (join_ne_empty dir hnames.1) hnames.2, components_join hdir hnames.1]
    simp

theorem fileName?_join {n : String} (hdir : dir ≠ "") (hn : IsName n) :
    fileName? (join dir n) = some n := by
  rw [fileName?, components_join hdir hn, List.getLast?_concat]

end Path

namespace Discovery

variable {path p : String} {e : FileEntry} {names : List String}
  {entries : List (String × FileEntry)}

/-- What the entry at a path is called: its last component, or the whole path if that is no name. -/
def called (path : String) : String := (Path.fileName? path).getD path

theorem called_join {n : String} (hpath : path ≠ "") (hn : Path.IsName n) :
    called (Path.join path n) = n := by
  rw [called, Path.fileName?_join hpath hn, Option.getD_some]

theorem called_notMem_excluded_iff (path : String) :
    called path ∉ excluded ↔ ∀ n, Path.fileName? path = some n → n ∉ excluded := by
  have hnames : ∀ s ∈ excluded, Path.fileName? s = some s := by decide
  unfold called
  cases hname : Path.fileName? path with
  | none =>
    have hpath : path ∉ excluded := by
      intro hmem
      rw [hnames path hmem] at hname
      cases hname
    simp [hpath]
  | some n => simp

/-- Names that the search follows from an entry at a path to a file that is called a snapshot. It
turns back at excluded directories. -/
structure Reaches (path : String) (e : FileEntry) (names : List String) : Prop where
  file : ∃ bytes, e.entryAt? names = some (.file bytes)
  named : isSnapshotName (called (Path.inside path names)) = true
  searched : ∀ way, way <+: names → ∀ entries, e.entryAt? way = some (.dir entries) →
    called (Path.inside path way) ∉ excluded

theorem reaches_file_iff {bytes : ByteArray} :
    Reaches path (.file bytes) names ↔ names = [] ∧ isSnapshotName (called path) = true := by
  constructor
  · rintro ⟨⟨bytes', hfile⟩, hnamed, -⟩
    cases names with
    | nil => exact ⟨rfl, hnamed⟩
    | cons n names => cases hfile
  · rintro ⟨rfl, hnamed⟩
    refine ⟨⟨bytes, rfl⟩, hnamed, fun way hway entries hdir => ?_⟩
    obtain rfl := List.prefix_nil.mp hway
    cases hdir

theorem not_reaches_dir_nil : ¬Reaches path (.dir entries) [] := by
  rintro ⟨⟨bytes, hfile⟩, -, -⟩
  cases hfile

theorem reaches_dir_cons_iff {n : String} :
    Reaches path (.dir entries) (n :: names) ↔
      called path ∉ excluded ∧
        ∃ e, entries.lookup n = some e ∧ Reaches (Path.join path n) e names := by
  constructor
  · rintro ⟨⟨bytes, hfile⟩, hnamed, hsearched⟩
    rw [FileEntry.entryAt?_cons_dir, Option.bind_eq_some_iff] at hfile
    obtain ⟨e, he, hfile⟩ := hfile
    refine ⟨hsearched [] List.nil_prefix entries rfl, e, he, ⟨bytes, hfile⟩, hnamed, ?_⟩
    intro way hway inner hinner
    apply hsearched (n :: way) (List.cons_prefix_cons.mpr ⟨rfl, hway⟩) inner
    rw [FileEntry.entryAt?_cons_dir, he, Option.bind_some, hinner]
  · rintro ⟨hopen, e, he, ⟨bytes, hfile⟩, hnamed, hsearched⟩
    refine ⟨⟨bytes, ?_⟩, hnamed, ?_⟩
    · rw [FileEntry.entryAt?_cons_dir, he, Option.bind_some, hfile]
    · intro way hway inner hinner
      rcases List.prefix_cons_iff.mp hway with rfl | ⟨rest, rfl, hrest⟩
      · exact hopen
      · rw [FileEntry.entryAt?_cons_dir, he, Option.bind_some] at hinner
        exact hsearched rest hrest inner hinner

/-- The search finds what it reaches. -/
theorem mem_snapshots_iff (hpath : path ≠ "") (hwell : e.WellNamed) (honce : e.NamedOnce) :
    p ∈ snapshots path (called path) e ↔
      ∃ names, Reaches path e names ∧ p = Path.inside path names := by
  induction e using FileEntry.entries_induction generalizing path with
  | file bytes =>
    simp only [mem_snapshots_file_iff, reaches_file_iff]
    constructor
    · rintro ⟨hnamed, rfl⟩
      exact ⟨[], ⟨rfl, hnamed⟩, rfl⟩
    · rintro ⟨names, ⟨rfl, hnamed⟩, rfl⟩
      exact ⟨hnamed, rfl⟩
  | dir entries ih =>
    obtain ⟨hnodup, honce⟩ := FileEntry.namedOnce_dir_iff.mp honce
    have hwell := FileEntry.allWellNamed_iff.mp hwell
    -- an entry is called by its name, which the join puts last in its path
    have hinner (m : String × FileEntry) (hm : m ∈ entries) :
        p ∈ snapshots (Path.join path m.1) m.1 m.2 ↔
          ∃ names, Reaches (Path.join path m.1) m.2 names ∧
            p = Path.inside path (m.1 :: names) := by
      obtain ⟨hn, hm'⟩ := hwell m hm
      have h := ih m hm (Path.join_ne_empty path hn) hm' (honce m hm)
      rwa [called_join hpath hn] at h
    rw [mem_snapshots_dir_iff]
    constructor
    · rintro ⟨hopen, m, hm, hp⟩
      obtain ⟨names, hreaches, rfl⟩ := (hinner m hm).mp hp
      have hlookup := (Keyed.lookup_eq_some_iff_mem hnodup).mpr hm
      exact ⟨m.1 :: names, reaches_dir_cons_iff.mpr ⟨hopen, m.2, hlookup, hreaches⟩, rfl⟩
    · rintro ⟨names, hreaches, rfl⟩
      cases names with
      | nil => exact absurd hreaches not_reaches_dir_nil
      | cons n names =>
        obtain ⟨hopen, e, he, hreaches⟩ := reaches_dir_cons_iff.mp hreaches
        have hm := (Keyed.lookup_eq_some_iff_mem hnodup).mp he
        exact ⟨hopen, (n, e), hm, (hinner (n, e) hm).mpr ⟨names, hreaches, rfl⟩⟩

/-- The component behind those of a directory is the name of the entry that a path is found in. -/
theorem components_of_mem_snapshots_join {n : String} (hpath : path ≠ "") (hn : Path.IsName n)
    (hwell : e.WellNamed) (hp : p ∈ snapshots (Path.join path n) n e) :
    ∃ names : List String,
      Path.components p = Path.components path ++ .name n :: names.map .name := by
  obtain ⟨names, hnames⟩ := components_of_mem_snapshots (Path.join_ne_empty path hn) hwell hp
  refine ⟨names, ?_⟩
  rw [hnames, Path.components_join hpath hn, List.append_assoc, List.singleton_append]

/-- No two paths that the search finds have the same components. -/
theorem pairwise_snapshots (hpath : path ≠ "") (hwell : e.WellNamed) (honce : e.NamedOnce) :
    (snapshots path (called path) e).Pairwise
      fun p q => Path.components p ≠ Path.components q := by
  induction e using FileEntry.entries_induction generalizing path with
  | file bytes =>
    rw [snapshots]
    split
    · exact List.pairwise_singleton _ _
    · exact List.Pairwise.nil
  | dir entries ih =>
    obtain ⟨hnodup, honce⟩ := FileEntry.namedOnce_dir_iff.mp honce
    have hwell := FileEntry.allWellNamed_iff.mp hwell
    rw [snapshots]
    split
    · exact List.Pairwise.nil
    rw [snapshotsIn_eq, List.pairwise_flatMap]
    constructor
    · intro m hm
      obtain ⟨hn, hm'⟩ := hwell m hm
      have h := ih m hm (Path.join_ne_empty path hn) hm' (honce m hm)
      rwa [called_join hpath hn] at h
    · rw [List.Nodup, List.pairwise_map] at hnodup
      refine hnodup.imp_of_mem fun {m m'} hm hm' hne p hp q hq heq => hne ?_
      obtain ⟨hn, hm⟩ := hwell m hm
      obtain ⟨hn', hm'⟩ := hwell m' hm'
      obtain ⟨names, hnames⟩ := components_of_mem_snapshots_join hpath hn hm hp
      obtain ⟨names', hnames'⟩ := components_of_mem_snapshots_join hpath hn' hm' hq
      rw [hnames, hnames', List.append_cancel_left_eq] at heq
      exact Component.name.inj (List.cons.inj heq).1

end Discovery

namespace Path

/-- Comes strictly before in the order of paths. -/
def Precedes (p q : String) : Prop := componentsLt (components p) (components q) = true

theorem Precedes.not_symm {p q : String} (h : Precedes p q) : ¬Precedes q p := by
  intro hback
  have hself := componentsLt_trans h hback
  rw [componentsLt_irrefl] at hself
  cases hself

/-- A list in strict order is told by its members. -/
theorem eq_of_pairwise_precedes {ps qs : List String} (hps : ps.Pairwise Precedes)
    (hqs : qs.Pairwise Precedes) (h : ∀ p, p ∈ ps ↔ p ∈ qs) : ps = qs := by
  have hnodup {l : List String} (hl : l.Pairwise Precedes) : l.Nodup :=
    hl.imp fun {p q} hpq heq => (heq ▸ hpq).not_symm (heq ▸ hpq)
  refine List.Perm.eq_of_pairwise (fun p q _ _ hpq hqp => absurd hqp hpq.not_symm) hps hqs ?_
  exact (List.perm_ext_iff_of_nodup (hnodup hps) (hnodup hqs)).mpr h

end Path

namespace FileSystem

variable {fs fs' : FileSystem} {root : String} {names : List String}
  {entries : List (String × FileEntry)}

/-- Names that lead from a root to a regular file with the ending of snapshots, where no directory
on the way is one that is never searched. The root itself is on the way, and its name is the last
component of its spelling. -/
structure FoundBelow (fs : FileSystem) (root : String) (names : List String) : Prop where
  file : ∃ bytes, fs.occupant (fs.location root ++ names) = .file bytes
  named : ∃ n, Path.fileName? (Path.inside root names) = some n ∧
    ".pgraph.json".toList <:+ n.toList
  searched : ∀ way, way <+: names → fs.occupant (fs.location root ++ way) = .directory →
    ∀ n, Path.fileName? (Path.inside root way) = some n →
      n ∉ ["target", ".git", "node_modules"]

/-- Two file systems look alike, but for regular files with names of excluded directories. -/
structure AlikeButExcluded (fs fs' : FileSystem) : Prop where
  working : fs'.working = fs.working
  occupant : ∀ place, fs'.occupant place = fs.occupant place ∨
    (∃ dir n, place = dir ++ [n] ∧ n ∈ Discovery.excluded) ∧
      fs.occupant place ≠ .directory ∧ fs'.occupant place ≠ .directory

theorem ne_empty_of_resolve {e : FileEntry} (h : fs.resolve root = .ok e) : root ≠ "" := by
  rintro rfl
  cases h

theorem occupant_below (hfs : fs.WellNamed) (hroot : fs.resolve root = .ok (.dir entries))
    (names : List String) :
    fs.occupant (fs.location root ++ names) =
      FileEntry.seen ((FileEntry.dir entries).entryAt? names) := by
  rw [occupant, FileEntry.occupant, FileEntry.entryAt?_append, fs.entryAt?_location hfs hroot,
    Option.bind_some]

theorem exists_concat_of_file (hfs : fs.WellNamed) (hroot : fs.resolve root = .ok (.dir entries))
    {bytes : ByteArray} (hfile : fs.occupant (fs.location root ++ names) = .file bytes) :
    ∃ way n, names = way ++ [n] ∧ Path.fileName? (Path.inside root names) = some n := by
  rw [occupant_below hfs hroot, FileEntry.seen_eq_file_iff] at hfile
  have hwell := (hfs.1.of_entryAt? (fs.entryAt?_location hfs hroot)).1
  have hnames := (hwell.of_entryAt? hfile).2
  rcases List.eq_nil_or_concat' names with rfl | ⟨way, n, rfl⟩
  · cases hfile
  · refine ⟨way, n, rfl, ?_⟩
    rw [Path.fileName?, Path.components_inside (ne_empty_of_resolve hroot) hnames, List.map_append,
      ← List.append_assoc, List.map_singleton, List.getLast?_concat]

theorem reaches_iff (hfs : fs.WellNamed) (hroot : fs.resolve root = .ok (.dir entries)) :
    Discovery.Reaches root (.dir entries) names ↔ fs.FoundBelow root names := by
  have hsearched (way : List String) : Discovery.called (Path.inside root way) ∉
        Discovery.excluded ↔ ∀ n, Path.fileName? (Path.inside root way) = some n →
          n ∉ ["target", ".git", "node_modules"] :=
    Discovery.called_notMem_excluded_iff _
  have hfile (bytes : ByteArray) : fs.occupant (fs.location root ++ names) = .file bytes ↔
      (FileEntry.dir entries).entryAt? names = some (.file bytes) := by
    rw [occupant_below hfs hroot, FileEntry.seen_eq_file_iff]
  have hdir (way : List String) : fs.occupant (fs.location root ++ way) = .directory ↔
      ∃ inner, (FileEntry.dir entries).entryAt? way = some (.dir inner) := by
    rw [occupant_below hfs hroot, FileEntry.seen_eq_directory_iff]
  constructor
  · rintro ⟨⟨bytes, hbytes⟩, hnamed, hway⟩
    obtain ⟨-, n, -, hn⟩ := exists_concat_of_file hfs hroot ((hfile bytes).mpr hbytes)
    rw [Discovery.called, hn, Option.getD_some, Discovery.isSnapshotName,
      List.isSuffixOf_iff_suffix] at hnamed
    refine ⟨⟨bytes, (hfile bytes).mpr hbytes⟩, ⟨n, hn, hnamed⟩, fun way hprefix hin => ?_⟩
    obtain ⟨inner, hinner⟩ := (hdir way).mp hin
    exact (hsearched way).mp (hway way hprefix inner hinner)
  · rintro ⟨⟨bytes, hbytes⟩, ⟨n, hn, hsuffix⟩, hway⟩
    refine ⟨⟨bytes, (hfile bytes).mp hbytes⟩, ?_, fun way hprefix inner hinner => ?_⟩
    · rw [Discovery.called, hn, Option.getD_some, Discovery.isSnapshotName,
        List.isSuffixOf_iff_suffix]
      exact hsuffix
    · exact (hsearched way).mpr (hway way hprefix ((hdir way).mpr ⟨inner, hinner⟩))

/-- What is found below a directory, in strict order. -/
theorem exists_found (hfs : fs.IsProper) (hroot : fs.resolve root = .ok (.dir entries)) :
    ∃ found, fs.snapshotsUnder root = .ok found ∧
      (∀ p, p ∈ found ↔ ∃ names, fs.FoundBelow root names ∧ p = Path.inside root names) ∧
      found.Pairwise Path.Precedes := by
  have hne := ne_empty_of_resolve hroot
  have hentry := fs.entryAt?_location hfs.wellNamed hroot
  have hwell := (hfs.wellNamed.1.of_entryAt? hentry).1
  have honce := hfs.namedOnce.entryAt? hentry
  have hok : fs.snapshotsUnder root =
      .ok ((Discovery.snapshots root (Discovery.called root) (.dir entries)).mergeSort Path.le) := by
    unfold snapshotsUnder
    rw [hroot]
    rfl
  refine ⟨_, hok, fun p => ?_, ?_⟩
  · rw [List.mem_mergeSort, Discovery.mem_snapshots_iff hne hwell honce]
    simp only [reaches_iff hfs.wellNamed hroot]
  · have hdistinct := ((List.mergeSort_perm _ Path.le).pairwise_iff Ne.symm).mpr
      (Discovery.pairwise_snapshots hne hwell honce)
    refine ((snapshotsUnder_sorted hok).and hdistinct).imp fun {p q} hpq => ?_
    exact (Path.le_iff.mp hpq.1).resolve_right hpq.2

namespace AlikeButExcluded

theorem of_put {dir : List String} {n : String} (bytes : ByteArray) (hn : n ∈ Discovery.excluded)
    (hdir : fs.occupant dir = .directory) (hvacant : fs.occupant (dir ++ [n]) ≠ .directory) :
    fs.AlikeButExcluded
      { fs with root := FileEntry.put (.file bytes) (dir ++ [n]) fs.root } := by
  refine ⟨rfl, fun place => ?_⟩
  have hput := FileEntry.occupant_put bytes hdir hvacant place
  by_cases hplace : place = dir ++ [n]
  · rw [if_pos hplace] at hput
    exact .inr ⟨⟨dir, n, hplace, hn⟩, hplace ▸ hvacant, fun h => nomatch hput.symm.trans h⟩
  · rw [if_neg hplace] at hput
    exact .inl hput

theorem symm (h : fs.AlikeButExcluded fs') : fs'.AlikeButExcluded fs := by
  refine ⟨h.working.symm, fun place => ?_⟩
  rcases h.occupant place with heq | ⟨hplace, hfs, hfs'⟩
  · exact .inl heq.symm
  · exact .inr ⟨hplace, hfs', hfs⟩

theorem directory (h : fs.AlikeButExcluded fs') {place : List String}
    (hdir : fs.occupant place = .directory) : fs'.occupant place = .directory := by
  rcases h.occupant place with heq | ⟨-, hfs, -⟩
  · rw [heq, hdir]
  · exact absurd hdir hfs

theorem location_eq (h : fs.AlikeButExcluded fs') (path : String) :
    fs'.location path = fs.location path := by
  rw [location, location, h.working]

theorem foundBelow (h : fs.AlikeButExcluded fs') (hfs : fs.WellNamed)
    (hroot : fs.resolve root = .ok (.dir entries)) (hfound : fs.FoundBelow root names) :
    fs'.FoundBelow root names := by
  obtain ⟨⟨bytes, hfile⟩, ⟨n, hn, hsuffix⟩, hsearched⟩ := hfound
  refine ⟨⟨bytes, ?_⟩, ⟨n, hn, hsuffix⟩, fun way hway hdir => ?_⟩
  · rw [h.location_eq]
    rcases h.occupant (fs.location root ++ names) with heq | ⟨⟨dir, m, hplace, hm⟩, -, -⟩
    · rw [heq, hfile]
    · have hother : ∀ s ∈ Discovery.excluded, ¬".pgraph.json".toList <:+ s.toList := by decide
      obtain ⟨way, n', rfl, hn'⟩ := exists_concat_of_file hfs hroot hfile
      rw [hn] at hn'
      obtain rfl := Option.some.inj hn'
      rw [← List.append_assoc] at hplace
      obtain rfl := List.singleton_inj.mp (List.append_inj_right' hplace rfl)
      exact absurd hsuffix (hother n hm)
  · rw [h.location_eq] at hdir
    exact hsearched way hway (h.symm.directory hdir)

theorem snapshotsUnder_eq (h : fs.AlikeButExcluded fs') (hfs : fs.IsProper) (hfs' : fs'.IsProper)
    (hroot : fs.resolve root = .ok (.dir entries)) :
    fs'.snapshotsUnder root = fs.snapshotsUnder root := by
  obtain ⟨entries', hroot'⟩ := exists_resolve_dir h.working (fun _ => h.directory) hroot
  obtain ⟨found, hok, hmem, hsorted⟩ := exists_found hfs hroot
  obtain ⟨found', hok', hmem', hsorted'⟩ := exists_found hfs' hroot'
  have hsame : found' = found := by
    refine Path.eq_of_pairwise_precedes hsorted' hsorted fun p => ?_
    rw [hmem, hmem']
    constructor
    · rintro ⟨names, hfound, rfl⟩
      exact ⟨names, h.symm.foundBelow hfs'.wellNamed hroot' hfound, rfl⟩
    · rintro ⟨names, hfound, rfl⟩
      exact ⟨names, h.foundBelow hfs.wellNamed hroot hfound, rfl⟩
  rw [hok, hok', hsame]

end AlikeButExcluded

end FileSystem

/-- A root that is a file is found alone and as it is spelled, and one that is not there is an error.
Below a directory exactly the files are found that are called snapshots and that no excluded
directory is on the way to; their paths go on from that of the root, and each comes once, in strict
order. Files with the names of excluded directories do not matter: the same is found with and without
them. -/
theorem snapshots_found_exactly (fs : FileSystem) (hfs : fs.IsProper) (root : String) :
    (∀ bytes, fs.resolve root = .ok (.file bytes) → fs.snapshotsUnder root = .ok [root]) ∧
    (∀ e, fs.resolve root = .error e → fs.snapshotsUnder root = .error (.file root e)) ∧
    ∀ entries, fs.resolve root = .ok (.dir entries) →
      (∃ found, fs.snapshotsUnder root = .ok found ∧
        (∀ p, p ∈ found ↔ ∃ names, fs.FoundBelow root names ∧ p = Path.inside root names) ∧
        (∀ p ∈ found, root.toList <+: p.toList) ∧ found.Pairwise Path.Precedes) ∧
      ∀ fs' : FileSystem, fs'.IsProper → fs.AlikeButExcluded fs' →
        fs'.snapshotsUnder root = fs.snapshotsUnder root := by
  refine ⟨fun bytes h => ?_, fun e h => ?_, fun entries h => ⟨?_, fun fs' hfs' halike => ?_⟩⟩
  · rw [FileSystem.snapshotsUnder, h]
  · rw [FileSystem.snapshotsUnder, h]
  · obtain ⟨found, hok, hmem, hsorted⟩ := FileSystem.exists_found hfs h
    refine ⟨found, hok, hmem, fun p hp => ?_, hsorted⟩
    obtain ⟨names, -, rfl⟩ := (hmem p).mp hp
    exact Path.prefix_inside (FileSystem.ne_empty_of_resolve h) names
  · exact halike.snapshotsUnder_eq hfs hfs' h

/-- A directory with snapshots, one of them inside a directory that is never searched. -/
def sourceEntries : List (String × FileEntry) :=
  [("a-b", .dir [("x.pgraph.json", .file .empty)]), ("notes.json", .file .empty),
    ("a", .dir [("y.pgraph.json", .file .empty),
      ("target", .dir [("z.pgraph.json", .file .empty)])])]

def sources : FileSystem := ⟨.dir [("src", .dir sourceEntries)], []⟩

theorem sources.isProper : sources.IsProper := by
  constructor
  · simp only [FileSystem.WellNamed, sources, sourceEntries, FileEntry.WellNamed,
      FileEntry.AllWellNamed, and_true]
    decide
  · simp [sources, sourceEntries, FileEntry.namedOnce_dir_iff, FileEntry.namedOnce_file]

/-- The search passes over a directory, and a file that is called like one changes nothing. -/
theorem snapshots_found_exactly_pruned :
    sources.IsProper ∧
    sources.snapshotsUnder "src/" = .ok ["src/a/y.pgraph.json", "src/a-b/x.pgraph.json"] ∧
    ["src/a/y.pgraph.json", "src/a-b/x.pgraph.json"].Pairwise Path.Precedes ∧
    ¬sources.FoundBelow "src/" ["a", "target", "z.pgraph.json"] ∧
    FileSystem.snapshotsUnder
      { sources with root := FileEntry.put (.file .empty) ["src", ".git"] sources.root } "src/" =
      .ok ["src/a/y.pgraph.json", "src/a-b/x.pgraph.json"] := by
  obtain ⟨-, -, hdir⟩ := snapshots_found_exactly sources sources.isProper "src/"
  obtain ⟨⟨found, hok, hmem, -, hsorted⟩, halike⟩ := hdir _ rfl
  have hwalk : Discovery.snapshots "src/" "src" (.dir sourceEntries) =
    ["src/a-b/x.pgraph.json", "src/a/y.pgraph.json"] := by decide +kernel
  have hfound : found = ["src/a/y.pgraph.json", "src/a-b/x.pgraph.json"] := by
    have hsort : found = (Discovery.snapshots "src/" "src" (.dir sourceEntries)).mergeSort Path.le :=
      Except.ok.inj (hok.symm.trans rfl)
    refine Path.eq_of_pairwise_precedes hsorted ?_ fun p => ?_
    · simp only [List.pairwise_pair, Path.Precedes]
      decide
    · rw [hsort, List.mem_mergeSort, hwalk]
      simp [or_comm]
  subst hfound
  refine ⟨sources.isProper, hok, hsorted, fun hbelow => ?_, ?_⟩
  · have hlisted := (hmem _).mpr ⟨_, hbelow, rfl⟩
    revert hlisted
    decide
  · have hput : sources.AlikeButExcluded { sources with
        root := FileEntry.put (.file .empty) (["src"] ++ [".git"]) sources.root } :=
      .of_put .empty (by decide) rfl nofun
    exact (halike _ (sources.isProper.put (by decide) .empty) hput).trans hok

end EnumCover
