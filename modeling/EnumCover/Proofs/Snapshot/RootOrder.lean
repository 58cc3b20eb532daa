import Mathlib.Data.List.Perm.Basic
import EnumCover.Proofs.Check.Packages
import EnumCover.Proofs.Files.Resolution
import EnumCover.Proofs.Snapshot.Overlap

namespace EnumCover

namespace Path

theorem getLast?_splitSlash_append (as : List Char) {bs : List Char} (h : '/' ∉ bs) :
    ∃ seg, (splitSlash (as ++ bs)).getLast? = some (seg ++ bs) := by
  induction as with
  | nil => exact ⟨[], by rw [List.nil_append, splitSlash_of_not_mem h]; rfl⟩
  | cons a as ih =>
    obtain ⟨seg, hseg⟩ := ih
    cases hsplit : splitSlash (as ++ bs) with
    | nil => exact absurd hsplit (splitSlash_ne_nil _)
    | cons first rest =>
      rw [hsplit] at hseg
      rw [List.cons_append, splitSlash, hsplit]
      by_cases ha : a = '/'
      · rw [if_pos ha]
        exact ⟨seg, by rw [List.getLast?_cons_cons, hseg]⟩
      · rw [if_neg ha]
        cases rest with
        | nil =>
          obtain rfl := Option.some.inj hseg
          exact ⟨a :: seg, rfl⟩
        | cons second rest =>
          rw [List.getLast?_cons_cons] at hseg
          exact ⟨seg, by rw [List.getLast?_cons_cons, hseg]⟩

theorem exists_toList_join (dir name : String) :
    ∃ as, (join dir name).toList = as ++ name.toList := by
  unfold join
  split
  · exact ⟨[], rfl⟩
  · split
    · exact ⟨dir.toList, String.toList_append⟩
    · exact ⟨(dir ++ "/").toList, String.toList_append⟩

end Path

namespace Discovery

theorem segment?_snapshot (seg : List Char) :
    (Path.segment? (seg ++ snapshotSuffix.toList)).isSome = true := by
  have hlen : 2 < (seg ++ snapshotSuffix.toList).length := by
    rw [List.length_append]
    exact Nat.lt_add_left _ (by decide)
  have hne (short : List Char) (hshort : short.length ≤ 2) :
      seg ++ snapshotSuffix.toList ≠ short := by
    intro heq
    rw [heq] at hlen
    omega
  have htrivial : ¬(seg ++ snapshotSuffix.toList = [] ∨ seg ++ snapshotSuffix.toList = ['.']) :=
    not_or.mpr ⟨hne [] (by decide), hne ['.'] (by decide)⟩
  rw [Path.segment?, if_neg htrivial, if_neg (hne ['.', '.'] (by decide))]
  rfl

theorem endsInComponent_join (dir : String) {name : String} (h : isSnapshotName name = true) :
    Path.endsInComponent (Path.splitSlash (Path.join dir name).toList) = true := by
  obtain ⟨stem, hstem⟩ := List.isSuffixOf_iff_suffix.mp h
  obtain ⟨as, has⟩ := Path.exists_toList_join dir name
  have hslash : '/' ∉ snapshotSuffix.toList := by decide
  obtain ⟨seg, hseg⟩ := Path.getLast?_splitSlash_append (as ++ stem) hslash
  rw [has, ← hstem, ← List.append_assoc, Path.endsInComponent, hseg]
  exact segment?_snapshot seg

theorem endsInComponent_of_mem_snapshots {dir name p : String} {e : FileEntry}
    (hp : p ∈ snapshots (Path.join dir name) name e) :
    Path.endsInComponent (Path.splitSlash p.toList) = true := by
  induction e using FileEntry.entries_induction generalizing dir name with
  | file bytes =>
    obtain ⟨hname, rfl⟩ := mem_snapshots_file_iff.mp hp
    exact endsInComponent_join dir hname
  | dir entries ih =>
    obtain ⟨-, m, hm, hp⟩ := mem_snapshots_dir_iff.mp hp
    exact ih m hm hp

end Discovery

namespace Assembly

theorem mem_map_components_dedupe {ps : List String} {cs : List Component} :
    cs ∈ (dedupe [] ps).map Path.components ↔ ∃ p ∈ ps, Path.components p = cs := by
  rw [List.mem_map]
  constructor
  · rintro ⟨p, hp, rfl⟩
    exact ⟨p, dedupe_subset hp, rfl⟩
  · rintro ⟨p, hp, rfl⟩
    exact exists_mem_dedupe [] hp List.not_mem_nil

/-- In another order other spellings may be kept, but of the same paths. -/
theorem map_components_dedupe_perm {ps qs : List String} (h : ps.Perm qs) :
    ((dedupe [] ps).map Path.components).Perm ((dedupe [] qs).map Path.components) := by
  have hnodup (ps : List String) : ((dedupe [] ps).map Path.components).Nodup :=
    List.pairwise_map.mpr (dedupe_distinct [] ps)
  rw [List.perm_ext_iff_of_nodup (hnodup ps) (hnodup qs)]
  intro cs
  simp only [mem_map_components_dedupe, h.mem_iff]

end Assembly

namespace FileSystem

variable {fs : FileSystem} {roots roots' : List String}

theorem endsInComponent_of_mem_snapshotsUnder {root p : String} {l : List String}
    (h : fs.snapshotsUnder root = .ok l) (hp : p ∈ l) :
    Path.endsInComponent (Path.splitSlash p.toList) = true := by
  unfold snapshotsUnder at h
  split at h
  · cases h
  · next hroot =>
    cases h
    obtain rfl := List.mem_singleton.mp hp
    exact endsInComponent_of_resolve hroot
  · cases h
    rw [List.mem_mergeSort, Discovery.mem_snapshots_dir_iff] at hp
    obtain ⟨-, m, -, hp⟩ := hp
    exact Discovery.endsInComponent_of_mem_snapshots hp

theorem Gathers.endsInComponent {files : List String} (h : fs.Gathers roots files) {p : String}
    (hp : p ∈ files) : Path.endsInComponent (Path.splitSlash p.toList) = true := by
  obtain ⟨all, hall, rfl⟩ := h.allSnapshots
  obtain ⟨root, -, l, hl, hpl⟩ := (mem_allSnapshots_iff hall).mp (Assembly.dedupe_subset hp)
  exact endsInComponent_of_mem_snapshotsUnder hl hpl

theorem Gathers.perm {files : List String} (h : fs.Gathers roots files)
    (hroots : roots'.Perm roots) : ∃ files', fs.Gathers roots' files' ∧
      (files'.map Path.components).Perm (files.map Path.components) := by
  obtain ⟨all, hall, rfl⟩ := h.allSnapshots
  obtain ⟨found, hfound, rfl⟩ := allSnapshots_eq_ok_iff.mp hall
  obtain ⟨found', hfound', hperm⟩ := List.perm_comp_forall₂ hroots hfound
  have hall' : fs.allSnapshots roots' = .ok found'.flatten :=
    allSnapshots_eq_ok_iff.mpr ⟨found', hfound', rfl⟩
  exact ⟨_, gathers_of_allSnapshots hall', Assembly.map_components_dedupe_perm hperm.flatten⟩

/-- Some spelling of a path, one that ends in a component, leads to the snapshot of a program. -/
def DecodesAlong (fs : FileSystem) (cs : List Component) (p : Program) : Prop :=
  ∃ path, Path.components path = cs ∧
    Path.endsInComponent (Path.splitSlash path.toList) = true ∧ fs.Decodes path p

theorem decodesAlong_iff {path : String} {p : Program}
    (h : Path.endsInComponent (Path.splitSlash path.toList) = true) :
    fs.DecodesAlong (Path.components path) p ↔ fs.Decodes path p := by
  constructor
  · rintro ⟨other, hcomponents, hother, bytes, text, hfile, hrest⟩
    rw [resolve_congr hcomponents hother h] at hfile
    exact ⟨bytes, text, hfile, hrest⟩
  · intro hp
    exact ⟨path, rfl, h, hp⟩

theorem Gathers.forall₂_decodesAlong_iff {files : List String} {programs : List Program}
    (h : fs.Gathers roots files) :
    List.Forall₂ fs.DecodesAlong (files.map Path.components) programs ↔
      List.Forall₂ fs.Decodes files programs := by
  rw [List.forall₂_map_left_iff]
  have hfiles : ∀ path ∈ files, ∀ p, fs.DecodesAlong (Path.components path) p ↔
      fs.Decodes path p := fun path hpath p => decodesAlong_iff (h.endsInComponent hpath)
  clear h
  induction files generalizing programs with
  | nil => simp
  | cons path files ih =>
    rw [List.forall_mem_cons] at hfiles
    simp only [List.forall₂_cons_left_iff, hfiles.1, ih hfiles.2]

/-- What is loaded from some roots is loaded from them in any order. -/
theorem assemble_perm {p : Program} (hroots : roots'.Perm roots)
    (h : fs.assemble roots = .ok p) :
    ∃ p', fs.assemble roots' = .ok p' ∧ p'.packages.Perm p.packages := by
  obtain ⟨hne, files, programs, hgather, hfiles, hdecodes, hpackages, hnodup, hclean⟩ :=
    assemble_eq_ok_iff.mp h
  obtain ⟨files', hgather', hcomponents⟩ := hgather.perm hroots
  obtain ⟨programs', hdecodes', hprograms⟩ :=
    List.perm_comp_forall₂ hcomponents (hgather.forall₂_decodesAlong_iff.mpr hdecodes)
  have hperm : (programs'.flatMap (·.packages)).Perm p.packages := by
    rw [hpackages]
    exact hprograms.flatMap_right _
  have hne' : roots' ≠ [] := fun hnil => hne (hnil ▸ hroots).nil_eq.symm
  have hfiles' : files' ≠ [] := by
    intro hnil
    rw [hnil, List.map_nil] at hcomponents
    exact hfiles (List.map_eq_nil_iff.mp hcomponents.nil_eq.symm)
  refine ⟨⟨programs'.flatMap (·.packages)⟩, assemble_eq_ok_iff.mpr ⟨hne', files', programs',
    hgather', hfiles', hgather'.forall₂_decodesAlong_iff.mp hdecodes', rfl, ?_, ?_⟩, hperm⟩
  · exact (hperm.map _).nodup_iff.mpr hnodup
  · exact fun k hk => hclean k (hperm.mem_iff.mp hk)

end FileSystem

/-- Roots in another order load a program if and only if they did before. The packages are then the
same up to their order, and so is what a check reports: the same counts and the same violations. -/
theorem root_order_irrelevant (fs : FileSystem) (roots roots' : List String)
    (h : roots.Perm roots') :
    ((∃ p, fs.assemble roots = .ok p) ↔ ∃ p', fs.assemble roots' = .ok p') ∧
    ∀ p p', fs.assemble roots = .ok p → fs.assemble roots' = .ok p' →
      p.packages.Perm p'.packages ∧ ∀ memoize memoize' ignore,
        (p.check ⟨memoize, ignore⟩).stats = (p'.check ⟨memoize', ignore⟩).stats ∧
        (p.check ⟨memoize, ignore⟩).filesAnalyzed = (p'.check ⟨memoize', ignore⟩).filesAnalyzed ∧
        (p.check ⟨memoize, ignore⟩).violations.Perm (p'.check ⟨memoize', ignore⟩).violations := by
  constructor
  · constructor
    · rintro ⟨p, hp⟩
      obtain ⟨p', hp', -⟩ := FileSystem.assemble_perm h.symm hp
      exact ⟨p', hp'⟩
    · rintro ⟨p', hp'⟩
      obtain ⟨p, hp, -⟩ := FileSystem.assemble_perm h hp'
      exact ⟨p, hp⟩
  · intro p p' hp hp'
    obtain ⟨q, hq, hperm⟩ := FileSystem.assemble_perm h hp'
    obtain rfl : p = q := Except.ok.inj (hp.symm.trans hq)
    obtain ⟨-, files, programs, -, -, -, -, hnodup, -⟩ := FileSystem.assemble_eq_ok_iff.mp hp
    refine ⟨hperm, fun memoize memoize' ignore => ?_⟩
    have hsame := Program.check_perm hperm hnodup memoize memoize' ignore
    exact ⟨hsame.stats, hsame.filesAnalyzed, hsame.violations⟩

def packageText (path : String) : String :=
  (Json.obj [("packages", .arr [.obj [("path", .str path)]])]).compact

def twoSnapshots : FileSystem :=
  ⟨.dir [("x", .dir [("a.pgraph.json", .file (packageText "p").toUTF8)]),
    ("y", .dir [("b.pgraph.json", .file (packageText "q").toUTF8)])], []⟩

theorem twoSnapshots.decodes {path package : String}
    (h : twoSnapshots.resolve path = .ok (.file (packageText package).toUTF8)) :
    twoSnapshots.Decodes path ⟨[⟨package, true, [], []⟩]⟩ := by
  refine .of_text h ((Program.ofSnapshot_compact_iff ?_).mpr rfl)
  simp [Json.IsPlain, Json.ArePlain, Json.MembersArePlain]

/-- The other order of the roots keeps another spelling of a file and merges in another order. -/
theorem root_order_irrelevant_respelled :
    ["x", "y", "y//b.pgraph.json"].Perm ["y//b.pgraph.json", "y", "x"] ∧
    twoSnapshots.assemble ["x", "y", "y//b.pgraph.json"] =
      .ok ⟨[⟨"p", true, [], []⟩, ⟨"q", true, [], []⟩]⟩ ∧
    ∃ p', twoSnapshots.assemble ["y//b.pgraph.json", "y", "x"] = .ok p' ∧
      [⟨"p", true, [], []⟩, ⟨"q", true, [], []⟩].Perm p'.packages := by
  have hperm : ["x", "y", "y//b.pgraph.json"].Perm ["y//b.pgraph.json", "y", "x"] := by decide
  have ha : twoSnapshots.Decodes "x/a.pgraph.json" ⟨[⟨"p", true, [], []⟩]⟩ :=
    twoSnapshots.decodes rfl
  have hb : twoSnapshots.Decodes "y/b.pgraph.json" ⟨[⟨"q", true, [], []⟩]⟩ :=
    twoSnapshots.decodes rfl
  have hall : twoSnapshots.allSnapshots ["x", "y", "y//b.pgraph.json"] =
      .ok ["x/a.pgraph.json", "y/b.pgraph.json", "y//b.pgraph.json"] := by decide +kernel
  have hfiles : Assembly.dedupe [] ["x/a.pgraph.json", "y/b.pgraph.json", "y//b.pgraph.json"] =
      ["x/a.pgraph.json", "y/b.pgraph.json"] := by decide +kernel
  have hgather := FileSystem.gathers_of_allSnapshots hall
  rw [hfiles] at hgather
  have hloaded : twoSnapshots.assemble ["x", "y", "y//b.pgraph.json"] =
      .ok ⟨[⟨"p", true, [], []⟩, ⟨"q", true, [], []⟩]⟩ :=
    FileSystem.assemble_eq_ok_iff.mpr ⟨List.cons_ne_nil _ _, _, _, hgather, List.cons_ne_nil _ _,
      .cons ha (.cons hb .nil), rfl, by decide, by decide⟩
  have h := root_order_irrelevant twoSnapshots _ _ hperm
  obtain ⟨p', hp'⟩ := h.1.mp ⟨_, hloaded⟩
  exact ⟨hperm, hloaded, p', hp', (h.2 _ _ hloaded hp').1⟩

end EnumCover
