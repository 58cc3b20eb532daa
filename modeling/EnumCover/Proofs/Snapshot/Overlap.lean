import Mathlib.Algebra.Ring.Nat
import Mathlib.Data.List.Nodup
import EnumCover.Proofs.Files.Location
import EnumCover.Proofs.Snapshot.Loading
import EnumCover.Proofs.Snapshot.Preservation

namespace EnumCover

namespace Discovery

theorem components_of_mem_snapshots {path name p : String} {e : FileEntry} (hpath : path ≠ "")
    (he : e.WellNamed) (hp : p ∈ snapshots path name e) :
    ∃ names : List String, Path.components p = Path.components path ++ names.map .name := by
  induction e using FileEntry.entries_induction generalizing path name with
  | file bytes =>
    obtain ⟨-, rfl⟩ := mem_snapshots_file_iff.mp hp
    exact ⟨[], by simp⟩
  | dir entries ih =>
    obtain ⟨-, m, hm, hp⟩ := mem_snapshots_dir_iff.mp hp
    obtain ⟨hn, hwell⟩ := FileEntry.allWellNamed_iff.mp he m hm
    obtain ⟨names, hnames⟩ := ih m hm (Path.join_ne_empty path hn) hwell hp
    refine ⟨m.1 :: names, ?_⟩
    rw [hnames, Path.components_join hpath hn]
    simp

end Discovery

namespace FileSystem

variable {fs : FileSystem}

theorem components_of_mem_snapshotsUnder (hfs : fs.WellNamed) {root p : String} {l : List String}
    (h : fs.snapshotsUnder root = .ok l) (hp : p ∈ l) :
    ∃ names : List String, Path.components p = Path.components root ++ names.map .name := by
  unfold snapshotsUnder at h
  split at h
  · cases h
  · cases h
    obtain rfl := List.mem_singleton.mp hp
    exact ⟨[], by simp⟩
  · next entries hroot =>
    cases h
    have hne : root ≠ "" := by
      rintro rfl
      cases hroot
    have hwell := (hfs.1.of_entryAt? (fs.entryAt?_location hfs hroot)).1
    exact Discovery.components_of_mem_snapshots hne hwell (List.mem_mergeSort.mp hp)

/-- What is found below a root starts like the root and has no parents if the root has none. -/
theorem anchor_of_mem_snapshotsUnder (hfs : fs.WellNamed) {root p : String} {l : List String}
    (h : fs.snapshotsUnder root = .ok l) (hp : p ∈ l) (hroot : .parent ∉ Path.components root) :
    .parent ∉ Path.components p ∧ Path.anchor p = Path.anchor root := by
  obtain ⟨names, hnames⟩ := components_of_mem_snapshotsUnder hfs h hp
  rw [hnames, Path.anchor, Path.anchor, hnames, List.filter_append]
  constructor
  · simpa using hroot
  · simp

end FileSystem

namespace Assembly

theorem dedupe_subset {seen : List (List Component)} {ps : List String} {p : String}
    (h : p ∈ dedupe seen ps) : p ∈ ps := by
  induction ps generalizing seen with
  | nil => cases h
  | cons q qs ih =>
    rw [dedupe] at h
    split at h
    · exact List.mem_cons_of_mem _ (ih h)
    · rcases List.mem_cons.mp h with rfl | h
      · exact List.mem_cons_self
      · exact List.mem_cons_of_mem _ (ih h)

theorem dedupe_not_seen {seen : List (List Component)} {ps : List String} {p : String}
    (h : p ∈ dedupe seen ps) : Path.components p ∉ seen := by
  induction ps generalizing seen with
  | nil => cases h
  | cons q qs ih =>
    rw [dedupe] at h
    split at h
    · exact ih h
    · next hq =>
      rcases List.mem_cons.mp h with rfl | h
      · exact hq
      · exact fun hs => ih h (List.mem_cons_of_mem _ hs)

theorem dedupe_distinct (seen : List (List Component)) (ps : List String) :
    (dedupe seen ps).Pairwise fun p q => Path.components p ≠ Path.components q := by
  induction ps generalizing seen with
  | nil => exact List.Pairwise.nil
  | cons q qs ih =>
    rw [dedupe]
    split
    · exact ih seen
    · refine List.Pairwise.cons (fun p hp heq => ?_) (ih _)
      exact dedupe_not_seen hp (heq ▸ List.mem_cons_self)

theorem exists_mem_dedupe (seen : List (List Component)) {ps : List String} {p : String}
    (hp : p ∈ ps) (hseen : Path.components p ∉ seen) :
    ∃ q ∈ dedupe seen ps, Path.components q = Path.components p := by
  induction ps generalizing seen with
  | nil => cases hp
  | cons q qs ih =>
    rw [dedupe]
    split
    · next hq =>
      rcases List.mem_cons.mp hp with rfl | hp
      · exact absurd hq hseen
      · exact ih _ hp hseen
    · by_cases heq : Path.components q = Path.components p
      · exact ⟨q, List.mem_cons_self, heq⟩
      · rcases List.mem_cons.mp hp with rfl | hp
        · exact absurd rfl heq
        · have hfresh : Path.components p ∉ Path.components q :: seen :=
            List.not_mem_cons_of_ne_of_not_mem (Ne.symm heq) hseen
          obtain ⟨r, hr, hcomp⟩ := ih _ hp hfresh
          exact ⟨r, List.mem_cons_of_mem _ hr, hcomp⟩

end Assembly

namespace FileSystem

variable {fs : FileSystem}

theorem location_congr {p q : String} (h : Path.components p = Path.components q) :
    fs.location p = fs.location q := by
  rw [location, location, h]

/-- Every file is loaded once exactly if no file has spellings with different components. -/
theorem nodup_locations_iff (ps : List String) :
    ((Assembly.dedupe [] ps).map fs.location).Nodup ↔
      ∀ p ∈ ps, ∀ q ∈ ps, fs.location p = fs.location q →
        Path.components p = Path.components q := by
  constructor
  · intro h p hp q hq hloc
    obtain ⟨p', hp', hpc⟩ := Assembly.exists_mem_dedupe [] hp List.not_mem_nil
    obtain ⟨q', hq', hqc⟩ := Assembly.exists_mem_dedupe [] hq List.not_mem_nil
    have heq : fs.location p' = fs.location q' := by
      rw [location_congr hpc, location_congr hqc, hloc]
    have hsame : p' = q' := List.inj_on_of_nodup_map h hp' hq' heq
    rw [← hpc, ← hqc, hsame]
  · intro h
    rw [List.Nodup, List.pairwise_map]
    refine (Assembly.dedupe_distinct [] ps).imp_of_mem fun {p q} hp hq hne hloc => ?_
    exact hne (h p (Assembly.dedupe_subset hp) q (Assembly.dedupe_subset hq) hloc)

/-- The file at the end of some names is the snapshot of a program. -/
def HoldsAt (fs : FileSystem) (place : List String) (p : Program) : Prop :=
  ∃ bytes text, fs.root.entryAt? place = some (.file bytes) ∧ String.fromUTF8? bytes = some text ∧
    Program.ofSnapshot text = .value p

theorem Decodes.holdsAt {path : String} {p : Program} (hfs : fs.WellNamed)
    (h : fs.Decodes path p) : fs.HoldsAt (fs.location path) p := by
  obtain ⟨bytes, text, hfile, htext, hp⟩ := h
  exact ⟨bytes, text, fs.entryAt?_location hfs hfile, htext, hp⟩

theorem mem_allSnapshots_iff {roots all : List String} (h : fs.allSnapshots roots = .ok all)
    {p : String} : p ∈ all ↔ ∃ root ∈ roots, ∃ l, fs.snapshotsUnder root = .ok l ∧ p ∈ l := by
  obtain ⟨found, hfound, rfl⟩ := allSnapshots_eq_ok_iff.mp h
  clear h
  induction hfound with
  | nil => simp
  | cons hl _ ih => simp [ih, hl]

theorem Gathers.nodup_locations {roots files : List String} (hfs : fs.WellNamed)
    (hparent : ∀ r ∈ roots, .parent ∉ Path.components r)
    (hanchor : ∀ r ∈ roots, ∀ r' ∈ roots, Path.anchor r = Path.anchor r')
    (h : fs.Gathers roots files) : (files.map fs.location).Nodup := by
  obtain ⟨all, hall, rfl⟩ := h.allSnapshots
  rw [nodup_locations_iff]
  intro p hp q hq hloc
  obtain ⟨r, hr, l, hl, hpl⟩ := (mem_allSnapshots_iff hall).mp hp
  obtain ⟨r', hr', l', hl', hql⟩ := (mem_allSnapshots_iff hall).mp hq
  obtain ⟨hpp, hpr⟩ := anchor_of_mem_snapshotsUnder hfs hl hpl (hparent r hr)
  obtain ⟨hqp, hqr⟩ := anchor_of_mem_snapshotsUnder hfs hl' hql (hparent r' hr')
  exact fs.components_eq_of_location_eq hpp hqp (by rw [hpr, hqr, hanchor r hr r' hr']) hloc

theorem Gathers.location_mem {roots files : List String} (h : fs.Gathers roots files)
    {root p : String} {l : List String} (hroot : root ∈ roots) (hl : fs.snapshotsUnder root = .ok l)
    (hp : p ∈ l) : fs.location p ∈ files.map fs.location := by
  obtain ⟨all, hall, rfl⟩ := h.allSnapshots
  have hmem : p ∈ all := (mem_allSnapshots_iff hall).mpr ⟨root, hroot, l, hl, hp⟩
  obtain ⟨q, hq, hqp⟩ := Assembly.exists_mem_dedupe [] hmem List.not_mem_nil
  exact List.mem_map.mpr ⟨q, hq, location_congr hqp⟩

/-- A duplicate is one among the packages of the files that were gathered. -/
theorem firstRepeat_of_assemble {roots : List String} {path file : String}
    (h : fs.assemble roots = .error (.duplicatePackage path file)) :
    ∃ files programs k, fs.Gathers roots files ∧ List.Forall₂ fs.Decodes files programs ∧
      Assembly.FirstRepeat (Assembly.merged files programs) file k ∧ k.path = path := by
  rcases assemble_error h with ⟨-, heq⟩ | ⟨-, hall | ⟨-, heq⟩ | ⟨files, hgather, hfault⟩⟩
  · cases heq
  · obtain ⟨_, _, _, _, _, _, _, heq⟩ := allSnapshots_error hall
    cases heq
  · cases heq
  cases hfault with
  | snapshot _ hfault => cases hfault
  | repeated hprograms hrepeat => exact ⟨files, _, _, hgather, hprograms, hrepeat, rfl⟩

end FileSystem

namespace Assembly

/-- How often a package path comes among the packages of a program. -/
def occurrences (path : String) (p : Program) : Nat := (p.packages.map (·.path)).count path

/-- A path that comes twice does so within one program or in two of them. -/
theorem repeated_within_or_across {R : String × Program → String × Program → Prop} {path : String}
    {ms : List (String × Program)} (hR : ms.Pairwise R)
    (h : 2 ≤ (ms.map fun m => occurrences path m.2).sum) :
    (∃ m ∈ ms, 2 ≤ occurrences path m.2) ∨
      ∃ m ∈ ms, ∃ m' ∈ ms, R m m' ∧ 0 < occurrences path m.2 ∧ 0 < occurrences path m'.2 := by
  induction ms with
  | nil => simp at h
  | cons m ms ih =>
    obtain ⟨hm, hms⟩ := List.pairwise_cons.mp hR
    rw [List.map_cons, List.sum_cons] at h
    by_cases hrest : 2 ≤ (ms.map fun m => occurrences path m.2).sum
    · rcases ih hms hrest with ⟨x, hx, hx2⟩ | ⟨x, hx, y, hy, hrest⟩
      · exact .inl ⟨x, List.mem_cons_of_mem _ hx, hx2⟩
      · exact .inr ⟨x, List.mem_cons_of_mem _ hx, y, List.mem_cons_of_mem _ hy, hrest⟩
    by_cases hone : 2 ≤ occurrences path m.2
    · exact .inl ⟨m, List.mem_cons_self, hone⟩
    -- one occurrence in the first program and one in a later one
    have hsum : 0 < (ms.map fun m => occurrences path m.2).sum := by omega
    obtain ⟨n, hn, hpos⟩ := List.sum_pos_iff_exists_pos_nat.mp hsum
    obtain ⟨m', hm', rfl⟩ := List.mem_map.mp hn
    refine .inr ⟨m, List.mem_cons_self, m', List.mem_cons_of_mem _ hm', hm m' hm', ?_, hpos⟩
    omega

theorem sum_occurrences (path : String) (files : List String) (programs : List Program) :
    ((files.zip programs).map fun m => occurrences path m.2).sum =
      ((merged files programs).map (·.2.path)).count path := by
  rw [merged, List.map_flatMap, List.count_flatMap]
  congr 1
  apply List.map_congr_left
  intro m _
  simp [occurrences, Function.comp_def]

theorem FirstRepeat.two_le_count {ps : List (String × Package)} {file : String} {k : Package}
    (h : FirstRepeat ps file k) : 2 ≤ (ps.map (·.2.path)).count k.path := by
  obtain ⟨before, after, rfl, -, hk⟩ := h
  have hpos := List.count_pos_iff.mpr hk
  rw [List.map_append, List.count_append, List.map_cons, List.count_cons_self]
  omega

end Assembly

/-- In a file system with proper names, let no root go up to a parent and all roots start alike.
Then every file that is found is loaded once, however many roots lead to it, and a package is a
duplicate only if its path comes twice in one file or in two files at different places. -/
theorem shared_files_loaded_once (fs : FileSystem) (roots : List String) (hfs : fs.WellNamed)
    (hparent : ∀ r ∈ roots, .parent ∉ Path.components r)
    (hanchor : ∀ r ∈ roots, ∀ r' ∈ roots, Path.anchor r = Path.anchor r') :
    (∀ files, fs.Gathers roots files → (files.map fs.location).Nodup ∧
      ∀ root ∈ roots, ∀ l, fs.snapshotsUnder root = .ok l →
        ∀ p ∈ l, fs.location p ∈ files.map fs.location) ∧
    ∀ path file, fs.assemble roots = .error (.duplicatePackage path file) →
      (∃ place p, fs.HoldsAt place p ∧ 2 ≤ Assembly.occurrences path p) ∨
      ∃ place place' p p', place ≠ place' ∧ fs.HoldsAt place p ∧ fs.HoldsAt place' p' ∧
        0 < Assembly.occurrences path p ∧ 0 < Assembly.occurrences path p' := by
  refine ⟨fun files h => ⟨h.nodup_locations hfs hparent hanchor, fun root hroot l hl p hp =>
    h.location_mem hroot hl hp⟩, fun path file h => ?_⟩
  obtain ⟨files, programs, k, hgather, hprograms, hrepeat, rfl⟩ :=
    FileSystem.firstRepeat_of_assemble h
  have hnodup := hgather.nodup_locations hfs hparent hanchor
  have hdistinct : (files.zip programs).Pairwise
      fun m m' => fs.location m.1 ≠ fs.location m'.1 := by
    rw [← List.pairwise_map (f := fun m : String × Program => m.1)
      (R := fun f f' => fs.location f ≠ fs.location f'),
      List.map_fst_zip (Nat.le_of_eq hprograms.length_eq), ← List.pairwise_map]
    exact hnodup
  have htwice := hrepeat.two_le_count
  rw [← Assembly.sum_occurrences] at htwice
  have hholds (m : String × Program) (hm : m ∈ files.zip programs) :
      fs.HoldsAt (fs.location m.1) m.2 := (List.forall₂_zip hprograms hm).holdsAt hfs
  rcases Assembly.repeated_within_or_across hdistinct htwice with ⟨m, hm, htwo⟩ |
    ⟨m, hm, m', hm', hne, hpos, hpos'⟩
  · exact .inl ⟨_, m.2, hholds m hm, htwo⟩
  · exact .inr ⟨_, _, m.2, m'.2, hne, hholds m hm, hholds m' hm', hpos, hpos'⟩

def snapshotText : String := "\x7b\"packages\":[\x7b\"path\":\"p\"\x7d]\x7d"

def oneSnapshot : FileSystem :=
  ⟨.dir [("a", .dir [("x.pgraph.json", .file snapshotText.toUTF8)])], []⟩

namespace oneSnapshot

theorem ofSnapshot_eq : Program.ofSnapshot snapshotText = .value ⟨[⟨"p", true, [], []⟩]⟩ := by
  have htext : snapshotText =
      (Json.obj [("packages", .arr [.obj [("path", .str "p")]])]).compact := by decide +kernel
  have hplain : (Json.obj [("packages", .arr [.obj [("path", .str "p")]])]).IsPlain := by
    simp [Json.IsPlain, Json.ArePlain, Json.MembersArePlain]
  rw [htext, Program.ofSnapshot_compact_iff hplain]
  rfl

theorem readSnapshot_eq (path : String)
    (h : oneSnapshot.readText path = .ok snapshotText) :
    oneSnapshot.readSnapshot path = .ok ⟨[⟨"p", true, [], []⟩]⟩ := by
  simp only [FileSystem.readSnapshot, h, ofSnapshot_eq]

theorem wellNamed : oneSnapshot.WellNamed := by
  simp only [FileSystem.WellNamed, oneSnapshot, FileEntry.WellNamed, FileEntry.AllWellNamed,
    and_true]
  decide

theorem entryAt?_dir_singleton {n : String} {e : FileEntry} {place : List String}
    {bytes : ByteArray} (h : (FileEntry.dir [(n, e)]).entryAt? place = some (.file bytes)) :
    ∃ names, place = n :: names ∧ e.entryAt? names = some (.file bytes) := by
  cases place with
  | nil => cases h
  | cons m names =>
    obtain ⟨inner, hinner, hnames⟩ := Option.bind_eq_some_iff.mp h
    simp only [FileEntry.lookup?, List.lookup_cons, List.lookup_nil] at hinner
    split at hinner
    · next heq =>
      cases hinner
      exact ⟨names, by rw [eq_of_beq heq], hnames⟩
    · cases hinner

theorem holdsAt {place : List String} {p : Program} (h : oneSnapshot.HoldsAt place p) :
    place = ["a", "x.pgraph.json"] ∧ Assembly.occurrences "p" p = 1 := by
  obtain ⟨bytes, text, hfile, htext, hp⟩ := h
  have hplace : place = ["a", "x.pgraph.json"] ∧
      bytes = snapshotText.toUTF8 := by
    obtain ⟨names, rfl, hnames⟩ := entryAt?_dir_singleton hfile
    obtain ⟨rest, rfl, hrest⟩ := entryAt?_dir_singleton hnames
    cases rest with
    | nil =>
      cases hrest
      exact ⟨rfl, rfl⟩
    | cons n rest => cases hrest
  obtain ⟨rfl, rfl⟩ := hplace
  rw [FileSystem.fromUTF8?_toUTF8] at htext
  cases htext
  rw [ofSnapshot_eq] at hp
  cases hp
  exact ⟨rfl, by decide⟩

end oneSnapshot

/-- Two roots that both lead to the file, without a dot at the start. -/
theorem shared_files_loaded_once_respelled :
    oneSnapshot.WellNamed ∧ oneSnapshot.Gathers ["a", "a//x.pgraph.json"] ["a/x.pgraph.json"] ∧
      (["a/x.pgraph.json"].map oneSnapshot.location).Nodup := by
  have hall : oneSnapshot.allSnapshots ["a", "a//x.pgraph.json"] =
      .ok ["a/x.pgraph.json", "a//x.pgraph.json"] := by decide +kernel
  have hgather : oneSnapshot.Gathers ["a", "a//x.pgraph.json"] ["a/x.pgraph.json"] := by
    have h := FileSystem.gathers_of_allSnapshots hall
    have hfiles : Assembly.dedupe [] ["a/x.pgraph.json", "a//x.pgraph.json"] =
        ["a/x.pgraph.json"] := by decide +kernel
    rwa [hfiles] at h
  exact ⟨oneSnapshot.wellNamed, hgather, ((shared_files_loaded_once oneSnapshot _
    oneSnapshot.wellNamed (by decide +kernel) (by decide +kernel)).1 _ hgather).1⟩

/-- A root that starts with a dot and one that does not load the file they share twice, although its
package comes once in one file. -/
theorem dotted_root_loads_twice :
    oneSnapshot.WellNamed ∧
    oneSnapshot.assemble [".", "a/x.pgraph.json"] =
      .error (.duplicatePackage "p" "a/x.pgraph.json") ∧
    ∀ place p, oneSnapshot.HoldsAt place p →
      place = ["a", "x.pgraph.json"] ∧ Assembly.occurrences "p" p = 1 := by
  have hdot := oneSnapshot.readSnapshot_eq "./a/x.pgraph.json" (by decide +kernel)
  have hown := oneSnapshot.readSnapshot_eq "a/x.pgraph.json" (by decide +kernel)
  have hall : oneSnapshot.allSnapshots [".", "a/x.pgraph.json"] =
      .ok ["./a/x.pgraph.json", "a/x.pgraph.json"] := by decide +kernel
  have hfiles : Assembly.dedupe [] ["./a/x.pgraph.json", "a/x.pgraph.json"] =
      ["./a/x.pgraph.json", "a/x.pgraph.json"] := by decide +kernel
  refine ⟨oneSnapshot.wellNamed, ?_, fun place p h => oneSnapshot.holdsAt h⟩
  rw [FileSystem.assemble_eq, hall]
  simp [Except.bind, Except.map, bind, pure, Except.pure, hfiles, FileSystem.readPackages, hdot,
    hown, Assembly.merge, FileSystem.load]

end EnumCover
