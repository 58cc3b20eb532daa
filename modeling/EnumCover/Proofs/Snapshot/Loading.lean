import Mathlib.Data.List.Induction
import Mathlib.Data.List.Forall2
import EnumCover.Proofs.Path.Order
import EnumCover.Snapshot.Assembly

namespace EnumCover

namespace Assembly

section Collect

variable {α β γ ε : Type}

theorem bind_eq_ok_iff {x : Except ε α} {f : α → Except ε β} {b : β} :
    x.bind f = .ok b ↔ ∃ a, x = .ok a ∧ f a = .ok b := by
  cases x <;> simp [Except.bind]

theorem bind_eq_error_iff {x : Except ε α} {f : α → Except ε β} {e : ε} :
    x.bind f = .error e ↔ x = .error e ∨ ∃ a, x = .ok a ∧ f a = .error e := by
  cases x <;> simp [Except.bind]

variable (g : α → Except ε β) (h : α → β → List γ)

/-- Goes through a list step by step and joins what the steps give, as long as none fails. -/
def collect : List α → Except ε (List γ)
  | [] => .ok []
  | a :: as => (g a).bind fun b => (collect as).bind fun cs => .ok (h a b ++ cs)

variable {g h}

theorem collect_eq_ok_iff {as : List α} {cs : List γ} :
    collect g h as = .ok cs ↔
      ∃ bs, List.Forall₂ (fun a b => g a = .ok b) as bs ∧
        cs = (as.zip bs).flatMap fun m => h m.1 m.2 := by
  induction as generalizing cs with
  | nil => simp [collect, eq_comm]
  | cons a as ih =>
    simp only [collect, bind_eq_ok_iff, ih, List.forall₂_cons_left_iff]
    constructor
    · rintro ⟨b, ha, rest, ⟨bs, hbs, rfl⟩, hcs⟩
      cases hcs
      exact ⟨b :: bs, ⟨b, bs, ha, hbs, rfl⟩, rfl⟩
    · rintro ⟨_, ⟨b, bs, ha, hbs, rfl⟩, rfl⟩
      exact ⟨b, ha, _, ⟨bs, hbs, rfl⟩, rfl⟩

theorem collect_error {as : List α} {e : ε} (herr : collect g h as = .error e) :
    ∃ before a after, as = before ++ a :: after ∧ (∀ x ∈ before, ∃ b, g x = .ok b) ∧
      g a = .error e := by
  induction as with
  | nil => cases herr
  | cons a as ih =>
    rw [collect, bind_eq_error_iff] at herr
    rcases herr with ha | ⟨b, ha, herr⟩
    · exact ⟨[], a, as, rfl, by simp, ha⟩
    rcases bind_eq_error_iff.mp herr with hrest | ⟨rest, -, hok⟩
    · obtain ⟨before, x, after, rfl, hbefore, hx⟩ := ih hrest
      refine ⟨a :: before, x, after, rfl, ?_, hx⟩
      rw [List.forall_mem_cons]
      exact ⟨⟨b, ha⟩, hbefore⟩
    · cases hok

end Collect

/-- No path before the given place has the same components. -/
def isFirstAt (paths : List String) (p : String) (i : Nat) : Bool :=
  ∀ q ∈ paths.take i, Path.components q ≠ Path.components p

/-- The paths of a list that no path before them spells with the same components. -/
def firstSpellings (paths : List String) : List String :=
  (paths.zipIdx.filter fun m => isFirstAt paths m.1 m.2).map (·.1)

theorem dedupe_concat (seen : List (List Component)) (ps : List String) (p : String) :
    dedupe seen (ps ++ [p]) = dedupe seen ps ++
      if Path.components p ∈ seen ∨ ∃ q ∈ ps, Path.components q = Path.components p then []
      else [p] := by
  induction ps generalizing seen with
  | nil => simp [dedupe]
  | cons q qs ih =>
    have hcond : (∃ r ∈ q :: qs, Path.components r = Path.components p) ↔
        Path.components p = Path.components q ∨
          ∃ r ∈ qs, Path.components r = Path.components p := by
      rw [List.exists_mem_cons_iff, eq_comm]
    by_cases hq : Path.components q ∈ seen
    · have hseen : Path.components p = Path.components q → Path.components p ∈ seen :=
        fun h => h ▸ hq
      simp only [List.cons_append, dedupe, if_pos hq, ih, hcond, ← or_assoc,
        or_iff_left_of_imp hseen]
    · simp only [List.cons_append, dedupe, if_neg hq, ih, hcond]
      simp only [List.mem_cons, or_left_comm, or_assoc]

theorem firstSpellings_concat (ps : List String) (p : String) :
    firstSpellings (ps ++ [p]) = firstSpellings ps ++
      if ∃ q ∈ ps, Path.components q = Path.components p then [] else [p] := by
  have hold : (ps.zipIdx.filter fun m => isFirstAt (ps ++ [p]) m.1 m.2) =
      ps.zipIdx.filter fun m => isFirstAt ps m.1 m.2 := by
    apply List.filter_congr
    intro m hm
    have hi := List.snd_lt_of_mem_zipIdx hm
    rw [isFirstAt, isFirstAt, List.take_append_of_le_length (by omega)]
  have hnew : isFirstAt (ps ++ [p]) p ps.length =
      !decide (∃ q ∈ ps, Path.components q = Path.components p) := by
    rw [isFirstAt, List.take_left, ← decide_not]
    simp only [not_exists, not_and, ne_eq]
  rw [firstSpellings, List.zipIdx_append, List.filter_append, hold, Nat.zero_add,
    List.zipIdx_singleton, List.filter_singleton, hnew, List.map_append, firstSpellings]
  by_cases h : ∃ q ∈ ps, Path.components q = Path.components p
  · simp only [decide_true, h]
    rfl
  · simp only [decide_false, h]
    rfl

theorem dedupe_eq_firstSpellings (ps : List String) : dedupe [] ps = firstSpellings ps := by
  induction ps using List.reverseRecOn with
  | nil => rfl
  | append_singleton ps p ih =>
    rw [dedupe_concat, firstSpellings_concat, ih]
    simp only [List.not_mem_nil, false_or]

/-- The packages of some programs in order, each with the file its program comes from. -/
def merged (files : List String) (programs : List Program) : List (String × Package) :=
  (files.zip programs).flatMap fun m => m.2.packages.map (m.1, ·)

theorem merged_packages {files : List String} {programs : List Program}
    (h : files.length = programs.length) :
    (merged files programs).map (·.2) = programs.flatMap (·.packages) := by
  simp only [merged, List.map_flatMap, List.map_map, Function.comp_def, List.map_id']
  rw [← List.flatMap_map, List.map_snd_zip (Nat.le_of_eq h.symm)]

/-- A package in the list has the path of one before it, and it is the first such package. -/
def FirstRepeat (ps : List (String × Package)) (file : String) (k : Package) : Prop :=
  ∃ before after, ps = before ++ (file, k) :: after ∧
    (before.map (·.2.path)).Nodup ∧ k.path ∈ before.map (·.2.path)

theorem merge_eq_ok_iff {seen : List String} {ps : List (String × Package)} {ks : List Package} :
    merge seen ps = .ok ks ↔
      ks = ps.map (·.2) ∧ (ps.map (·.2.path)).Nodup ∧ ∀ m ∈ ps, m.2.path ∉ seen := by
  induction ps generalizing seen ks with
  | nil => simp [merge, eq_comm]
  | cons m ps ih =>
    obtain ⟨file, k⟩ := m
    have hmap : (merge (k.path :: seen) ps).map (k :: ·) = .ok ks ↔
        ∃ rest, merge (k.path :: seen) ps = .ok rest ∧ k :: rest = ks := by
      cases merge (k.path :: seen) ps <;> simp [Except.map]
    by_cases hk : k.path ∈ seen
    · simp [merge, hk]
    · rw [merge, if_neg hk, hmap, List.forall_mem_cons]
      simp only [ih, List.map_cons, List.nodup_cons, List.mem_map, List.mem_cons]
      constructor
      · rintro ⟨rest, ⟨rfl, hnodup, hseen⟩, rfl⟩
        refine ⟨rfl, ⟨?_, hnodup⟩, hk, fun m hm hs => hseen m hm (.inr hs)⟩
        rintro ⟨m, hm, hpath⟩
        exact hseen m hm (.inl hpath)
      · rintro ⟨rfl, ⟨hfresh, hnodup⟩, -, hseen⟩
        refine ⟨_, ⟨rfl, hnodup, fun m hm hs => ?_⟩, rfl⟩
        rcases hs with hpath | hs
        · exact hfresh ⟨m, hm, hpath⟩
        · exact hseen m hm hs

theorem merge_error {seen : List String} {ps : List (String × Package)} {e : Failure}
    (h : merge seen ps = .error e) :
    ∃ before file k after, ps = before ++ (file, k) :: after ∧
      (before.map (·.2.path)).Nodup ∧ (∀ m ∈ before, m.2.path ∉ seen) ∧
      (k.path ∈ seen ∨ k.path ∈ before.map (·.2.path)) ∧
      e = .duplicatePackage k.path file := by
  induction ps generalizing seen with
  | nil => cases h
  | cons m ps ih =>
    obtain ⟨file, k⟩ := m
    by_cases hk : k.path ∈ seen
    · rw [merge, if_pos hk] at h
      cases h
      exact ⟨[], file, k, ps, rfl, List.nodup_nil, by simp, .inl hk, rfl⟩
    · rw [merge, if_neg hk] at h
      cases hrest : merge (k.path :: seen) ps with
      | ok rest =>
        rw [hrest] at h
        cases h
      | error e' =>
        rw [hrest] at h
        cases h
        -- the paths before the repeat are new against `k` as well, since they are seen behind it
        obtain ⟨before, file', k', after, rfl, hnodup, hseen, hk', rfl⟩ := ih hrest
        simp only [List.mem_cons, not_or] at hseen hk'
        refine ⟨(file, k) :: before, file', k', after, rfl, ?_, ?_, ?_, rfl⟩
        · rw [List.map_cons, List.nodup_cons]
          refine ⟨?_, hnodup⟩
          rw [List.mem_map]
          rintro ⟨m, hm, hpath⟩
          exact (hseen m hm).1 hpath
        · rw [List.forall_mem_cons]
          exact ⟨hk, fun m hm => (hseen m hm).2⟩
        · rw [List.map_cons, List.mem_cons]
          rcases hk' with (hpath | hs) | hb
          · exact .inr (.inl hpath)
          · exact .inl hs
          · exact .inr (.inr hb)

theorem firstRepeat_of_merge_error {ps : List (String × Package)} {e : Failure}
    (h : merge [] ps = .error e) :
    ∃ file k, FirstRepeat ps file k ∧ e = .duplicatePackage k.path file := by
  obtain ⟨before, file, k, after, hps, hnodup, -, hk, rfl⟩ := merge_error h
  rw [List.mem_nil_iff, false_or] at hk
  exact ⟨file, k, ⟨before, after, hps, hnodup, hk⟩, rfl⟩

end Assembly

namespace FileSystem

variable {fs : FileSystem}

/-- The files found below some roots: root by root, each in the order of paths, and of all spellings
of a path the first. -/
def Gathers (fs : FileSystem) (roots files : List String) : Prop :=
  ∃ found : List (List String),
    List.Forall₂ (fun root l => fs.snapshotsUnder root = .ok l ∧ l.Pairwise (Path.le · ·))
      roots found ∧
    files = Assembly.firstSpellings found.flatten

/-- The file at a path holds a text that is the snapshot of a program. -/
def Decodes (fs : FileSystem) (path : String) (p : Program) : Prop :=
  ∃ bytes text, fs.resolve path = .ok (.file bytes) ∧ String.fromUTF8? bytes = some text ∧
    Program.ofSnapshot text = .value p

/-- What is wrong with the file at a path: it cannot be read as a text, or its text is no
snapshot. -/
inductive SnapshotFault (fs : FileSystem) (path : String) : Failure → Prop
  | unreadable {e : FileError} (h : fs.readText path = .error e) :
    SnapshotFault fs path (.file path e)
  | malformed {text : String} {line : Nat} (h : fs.readText path = .ok text)
    (hline : Program.ofSnapshot text = .fault line) : SnapshotFault fs path (.snapshot path line)

theorem snapshotsUnder_sorted {root : String} {l : List String}
    (h : fs.snapshotsUnder root = .ok l) : l.Pairwise (Path.le · ·) := by
  unfold snapshotsUnder at h
  split at h
  · cases h
  · cases h
    exact List.pairwise_singleton _ _
  · cases h
    exact List.pairwise_mergeSort Path.le_trans Path.le_total _

theorem snapshotsUnder_error {root : String} {f : Failure}
    (h : fs.snapshotsUnder root = .error f) :
    ∃ e, fs.resolve root = .error e ∧ f = .file root e := by
  unfold snapshotsUnder at h
  split at h
  · next e he =>
    cases h
    exact ⟨e, he, rfl⟩
  · cases h
  · cases h

theorem resolve_of_snapshotsUnder {root : String} {l : List String}
    (h : fs.snapshotsUnder root = .ok l) : ∃ entry, fs.resolve root = .ok entry := by
  unfold snapshotsUnder at h
  split at h
  · cases h
  · next hentry => exact ⟨_, hentry⟩
  · next hentry => exact ⟨_, hentry⟩

theorem allSnapshots_eq (roots : List String) :
    fs.allSnapshots roots = Assembly.collect fs.snapshotsUnder (fun _ l => l) roots := by
  induction roots with
  | nil => rfl
  | cons root roots ih =>
    rw [allSnapshots, Assembly.collect, ← ih]
    cases fs.snapshotsUnder root with
    | error e => rfl
    | ok here => cases fs.allSnapshots roots <;> rfl

theorem allSnapshots_eq_ok_iff {roots all : List String} :
    fs.allSnapshots roots = .ok all ↔
      ∃ found, List.Forall₂ (fun root l => fs.snapshotsUnder root = .ok l) roots found ∧
        all = found.flatten := by
  rw [allSnapshots_eq, Assembly.collect_eq_ok_iff]
  apply exists_congr
  intro found
  apply and_congr_right
  intro hfound
  rw [List.flatMap_def, List.map_snd_zip (Nat.le_of_eq hfound.length_eq.symm)]

theorem allSnapshots_error {roots : List String} {f : Failure}
    (h : fs.allSnapshots roots = .error f) :
    ∃ before root after e, roots = before ++ root :: after ∧
      (∀ r ∈ before, ∃ entry, fs.resolve r = .ok entry) ∧
      fs.resolve root = .error e ∧ f = .file root e := by
  rw [allSnapshots_eq] at h
  obtain ⟨before, root, after, hroots, hbefore, hroot⟩ := Assembly.collect_error h
  obtain ⟨e, he, rfl⟩ := snapshotsUnder_error hroot
  refine ⟨before, root, after, e, hroots, fun r hr => ?_, he, rfl⟩
  obtain ⟨l, hl⟩ := hbefore r hr
  exact resolve_of_snapshotsUnder hl

theorem gathers_of_allSnapshots {roots all : List String} (h : fs.allSnapshots roots = .ok all) :
    fs.Gathers roots (Assembly.dedupe [] all) := by
  obtain ⟨found, hfound, rfl⟩ := allSnapshots_eq_ok_iff.mp h
  exact ⟨found, hfound.imp fun _ _ hl => ⟨hl, snapshotsUnder_sorted hl⟩,
    Assembly.dedupe_eq_firstSpellings _⟩

theorem Gathers.allSnapshots {roots files : List String} (h : fs.Gathers roots files) :
    ∃ all, fs.allSnapshots roots = .ok all ∧ files = Assembly.dedupe [] all := by
  obtain ⟨found, hfound, rfl⟩ := h
  exact ⟨found.flatten, allSnapshots_eq_ok_iff.mpr ⟨found, hfound.imp fun _ _ hl => hl.1, rfl⟩,
    (Assembly.dedupe_eq_firstSpellings _).symm⟩

theorem readSnapshot_eq_ok_iff {path : String} {p : Program} :
    fs.readSnapshot path = .ok p ↔ fs.Decodes path p := by
  unfold readSnapshot readText Decodes
  cases fs.resolve path with
  | error e => simp
  | ok e =>
    cases e with
    | dir entries => simp
    | file bytes =>
      cases htext : String.fromUTF8? bytes with
      | none => simp [htext]
      | some text => cases hp : Program.ofSnapshot text <;> simp [htext, hp]

theorem readSnapshot_error {path : String} {f : Failure}
    (h : fs.readSnapshot path = .error f) : fs.SnapshotFault path f := by
  unfold readSnapshot at h
  split at h
  · next e he =>
    cases h
    exact .unreadable he
  · next text htext =>
    split at h
    · cases h
    · next line hline =>
      cases h
      exact .malformed htext hline

theorem fromUTF8?_toUTF8 (text : String) : String.fromUTF8? text.toUTF8 = some text :=
  dif_pos text.isValidUTF8

theorem Decodes.of_text {path text : String} {p : Program}
    (hfile : fs.resolve path = .ok (.file text.toUTF8)) (hp : Program.ofSnapshot text = .value p) :
    fs.Decodes path p :=
  ⟨_, text, hfile, fromUTF8?_toUTF8 text, hp⟩

theorem readPackages_eq (files : List String) :
    fs.readPackages files =
      Assembly.collect fs.readSnapshot (fun file p => p.packages.map (file, ·)) files := by
  induction files with
  | nil => rfl
  | cons file files ih =>
    rw [readPackages, Assembly.collect, ← ih]
    cases fs.readSnapshot file with
    | error e => rfl
    | ok p => cases fs.readPackages files <;> rfl

theorem readPackages_eq_ok_iff {files : List String} {ms : List (String × Package)} :
    fs.readPackages files = .ok ms ↔
      ∃ programs, List.Forall₂ fs.Decodes files programs ∧ ms = Assembly.merged files programs := by
  rw [readPackages_eq, Assembly.collect_eq_ok_iff]
  simp only [readSnapshot_eq_ok_iff]
  rfl

theorem readPackages_error {files : List String} {f : Failure}
    (h : fs.readPackages files = .error f) : ∃ path ∈ files, fs.SnapshotFault path f := by
  rw [readPackages_eq] at h
  obtain ⟨before, path, after, rfl, -, hpath⟩ := Assembly.collect_error h
  exact ⟨path, List.mem_append_right _ List.mem_cons_self, readSnapshot_error hpath⟩

/-- The program of some packages, unless one of them has diagnostics. -/
def accept (ks : List Package) : Except Failure Program :=
  match ks.find? (!·.diagnostics.isEmpty) with
  | some failed => .error (.diagnostics failed.path failed.diagnostics)
  | none => .ok ⟨ks⟩

def load (fs : FileSystem) (files : List String) : Except Failure Program :=
  (fs.readPackages files).bind fun ms => (Assembly.merge [] ms).bind accept

/-- Loading in stages, each of which may fail. -/
theorem assemble_eq (roots : List String) :
    fs.assemble roots =
      if roots = [] then .error .noInputs
      else (fs.allSnapshots roots).bind fun all =>
        if Assembly.dedupe [] all = [] then .error (.noSnapshots roots)
        else fs.load (Assembly.dedupe [] all) := by
  unfold assemble
  cases roots with
  | nil => rfl
  | cons root roots =>
    cases fs.allSnapshots (root :: roots) with
    | error e => rfl
    | ok all =>
      cases hfiles : Assembly.dedupe [] all with
      | nil =>
        simp only [reduceCtorEq, if_false, Except.bind, hfiles, if_true]
        simp only [bind, Except.bind, hfiles]
        rfl
      | cons file files =>
        simp only [reduceCtorEq, if_false, Except.bind, hfiles, load]
        simp only [bind, Except.bind, hfiles]
        cases fs.readPackages (file :: files) with
        | error e => rfl
        | ok ms =>
          cases Assembly.merge [] ms with
          | error e => rfl
          | ok ks =>
            simp only [accept]
            cases ks.find? (!·.diagnostics.isEmpty) <;> rfl

theorem accept_eq_ok_iff {ks : List Package} {p : Program} :
    accept ks = .ok p ↔ p.packages = ks ∧ ∀ k ∈ ks, k.diagnostics = [] := by
  obtain ⟨packages⟩ := p
  unfold accept
  cases hfind : ks.find? (!·.diagnostics.isEmpty) with
  | none =>
    rw [List.find?_eq_none] at hfind
    simp only [Bool.not_eq_true', Bool.not_eq_false, List.isEmpty_iff] at hfind
    simp only [Except.ok.injEq, Program.mk.injEq, and_iff_left hfind, eq_comm]
  | some failed =>
    have hmem := List.mem_of_find?_eq_some hfind
    have hdiag := List.find?_some hfind
    simp only [Bool.not_eq_true', List.isEmpty_eq_false_iff] at hdiag
    simp only [reduceCtorEq, false_iff, not_and]
    intro _ hall
    exact hdiag (hall failed hmem)

theorem accept_error {ks : List Package} {f : Failure} (h : accept ks = .error f) :
    ∃ before k after, ks = before ++ k :: after ∧ (∀ x ∈ before, x.diagnostics = []) ∧
      k.diagnostics ≠ [] ∧ f = .diagnostics k.path k.diagnostics := by
  unfold accept at h
  cases hfind : ks.find? (!·.diagnostics.isEmpty) with
  | none =>
    rw [hfind] at h
    cases h
  | some failed =>
    rw [hfind] at h
    cases h
    obtain ⟨hdiag, before, after, hks, hbefore⟩ := List.find?_eq_some_iff_append.mp hfind
    simp only [Bool.not_eq_true', List.isEmpty_eq_false_iff, Bool.not_not, List.isEmpty_iff]
      at hdiag hbefore
    exact ⟨before, failed, after, hks, hbefore, hdiag, rfl⟩

/-- Why nothing is loaded from some files. The conditions are tried in this order, and a later one
only counts where those before it hold. -/
inductive FilesFault (fs : FileSystem) (files : List String) : Failure → Prop
  | snapshot {path : String} {f : Failure} (hpath : path ∈ files)
    (hfault : fs.SnapshotFault path f) : FilesFault fs files f
  /-- The first package whose path came before, whatever the diagnostics. -/
  | repeated {programs : List Program} {file : String} {k : Package}
    (hprograms : List.Forall₂ fs.Decodes files programs)
    (hrepeat : Assembly.FirstRepeat (Assembly.merged files programs) file k) :
    FilesFault fs files (.duplicatePackage k.path file)
  | diagnosed {programs : List Program} {before after : List Package} {k : Package}
    (hprograms : List.Forall₂ fs.Decodes files programs)
    (hnodup : ((programs.flatMap (·.packages)).map (·.path)).Nodup)
    (hks : programs.flatMap (·.packages) = before ++ k :: after)
    (hbefore : ∀ x ∈ before, x.diagnostics = []) (hk : k.diagnostics ≠ []) :
    FilesFault fs files (.diagnostics k.path k.diagnostics)

theorem merge_merged_eq_ok_iff {files : List String} {programs : List Program} {ks : List Package}
    (h : List.Forall₂ fs.Decodes files programs) :
    Assembly.merge [] (Assembly.merged files programs) = .ok ks ↔
      ks = programs.flatMap (·.packages) ∧ (ks.map (·.path)).Nodup := by
  rw [Assembly.merge_eq_ok_iff, ← Assembly.merged_packages h.length_eq]
  constructor
  · rintro ⟨rfl, hnodup, -⟩
    refine ⟨rfl, ?_⟩
    rwa [List.map_map]
  · rintro ⟨rfl, hnodup⟩
    rw [List.map_map] at hnodup
    exact ⟨rfl, hnodup, fun _ _ => List.not_mem_nil⟩

theorem load_eq_ok_iff {files : List String} {p : Program} :
    fs.load files = .ok p ↔ ∃ programs, List.Forall₂ fs.Decodes files programs ∧
      p.packages = programs.flatMap (·.packages) ∧ (p.packages.map (·.path)).Nodup ∧
      ∀ k ∈ p.packages, k.diagnostics = [] := by
  simp only [load, Assembly.bind_eq_ok_iff]
  constructor
  · rintro ⟨ms, hms, ks, hks, hp⟩
    obtain ⟨programs, hprograms, rfl⟩ := readPackages_eq_ok_iff.mp hms
    obtain ⟨rfl, hclean⟩ := accept_eq_ok_iff.mp hp
    obtain ⟨hpackages, hnodup⟩ := (merge_merged_eq_ok_iff hprograms).mp hks
    exact ⟨programs, hprograms, hpackages, hnodup, hclean⟩
  · rintro ⟨programs, hprograms, hpackages, hnodup, hclean⟩
    exact ⟨_, readPackages_eq_ok_iff.mpr ⟨programs, hprograms, rfl⟩, p.packages,
      (merge_merged_eq_ok_iff hprograms).mpr ⟨hpackages, hnodup⟩,
      accept_eq_ok_iff.mpr ⟨rfl, hclean⟩⟩

theorem load_error {files : List String} {f : Failure} (h : fs.load files = .error f) :
    fs.FilesFault files f := by
  rcases Assembly.bind_eq_error_iff.mp h with hms | ⟨ms, hms, h⟩
  · obtain ⟨path, hpath, hfault⟩ := readPackages_error hms
    exact .snapshot hpath hfault
  obtain ⟨programs, hprograms, rfl⟩ := readPackages_eq_ok_iff.mp hms
  rcases Assembly.bind_eq_error_iff.mp h with hks | ⟨ks, hks, h⟩
  · obtain ⟨file, k, hrepeat, rfl⟩ := Assembly.firstRepeat_of_merge_error hks
    exact .repeated hprograms hrepeat
  obtain ⟨rfl, hnodup⟩ := (merge_merged_eq_ok_iff hprograms).mp hks
  obtain ⟨before, k, after, hsplit, hbefore, hk, rfl⟩ := accept_error h
  exact .diagnosed hprograms hnodup hsplit hbefore hk

theorem assemble_eq_ok_iff {roots : List String} {p : Program} :
    fs.assemble roots = .ok p ↔ roots ≠ [] ∧ ∃ files programs, fs.Gathers roots files ∧
      files ≠ [] ∧ List.Forall₂ fs.Decodes files programs ∧
      p.packages = programs.flatMap (·.packages) ∧ (p.packages.map (·.path)).Nodup ∧
      ∀ k ∈ p.packages, k.diagnostics = [] := by
  rw [assemble_eq]
  by_cases hroots : roots = []
  · simp [hroots]
  simp only [if_neg hroots, Assembly.bind_eq_ok_iff]
  constructor
  · rintro ⟨all, hall, h⟩
    split at h
    · cases h
    next hfiles =>
    obtain ⟨programs, hrest⟩ := load_eq_ok_iff.mp h
    exact ⟨hroots, _, programs, gathers_of_allSnapshots hall, hfiles, hrest⟩
  · rintro ⟨-, files, programs, hgather, hfiles, hrest⟩
    obtain ⟨all, hall, rfl⟩ := hgather.allSnapshots
    refine ⟨all, hall, ?_⟩
    rw [if_neg hfiles]
    exact load_eq_ok_iff.mpr ⟨programs, hrest⟩

/-- Where loading stops: without roots, at a root that is not there, without files, or at what is
wrong with the files. -/
theorem assemble_error {roots : List String} {f : Failure} (h : fs.assemble roots = .error f) :
    (roots = [] ∧ f = .noInputs) ∨
    roots ≠ [] ∧ (fs.allSnapshots roots = .error f ∨
      (fs.Gathers roots [] ∧ f = .noSnapshots roots) ∨
      ∃ files, fs.Gathers roots files ∧ fs.FilesFault files f) := by
  rw [assemble_eq] at h
  by_cases hroots : roots = []
  · rw [if_pos hroots] at h
    cases h
    exact .inl ⟨hroots, rfl⟩
  rw [if_neg hroots, Assembly.bind_eq_error_iff] at h
  refine .inr ⟨hroots, ?_⟩
  rcases h with hall | ⟨all, hall, h⟩
  · exact .inl hall
  have hgather := gathers_of_allSnapshots hall
  split at h
  · next hfiles =>
    cases h
    rw [hfiles] at hgather
    exact .inr (.inl ⟨hgather, rfl⟩)
  · exact .inr (.inr ⟨_, hgather, load_error h⟩)

end FileSystem

theorem Program.package?_of_nodup {p : Program} (h : (p.packages.map (·.path)).Nodup)
    {k : Package} (hk : k ∈ p.packages) : p.package? k.path = some k := by
  obtain ⟨before, after, hsplit⟩ := List.append_of_mem hk
  rw [Program.package?, List.find?_eq_some_iff_append]
  refine ⟨beq_self_eq_true _, before, after, hsplit, fun x hx => ?_⟩
  rw [hsplit, List.map_append, List.map_cons] at h
  have hne : x.path ≠ k.path := fun heq =>
    (List.nodup_append.mp h).2.2 x.path (List.mem_map_of_mem hx) k.path List.mem_cons_self heq
  simpa using hne

end EnumCover
