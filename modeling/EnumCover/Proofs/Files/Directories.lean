import EnumCover.Proofs.Files.Writing
import EnumCover.Proofs.Path.Stripping

namespace EnumCover

namespace FileEntry

/-- No directory has two entries of the same name. -/
def NamedOnce (top : FileEntry) : Prop :=
  ∀ names entries, top.entryAt? names = some (.dir entries) → (entries.map Prod.fst).Nodup

theorem entryAt?_cons_dir (n : String) (names : List String)
    (entries : List (String × FileEntry)) :
    (dir entries).entryAt? (n :: names) = (entries.lookup n).bind (entryAt? names) := rfl

theorem namedOnce_file (bytes : ByteArray) : (file bytes).NamedOnce := by
  intro names entries h
  cases names <;> cases h

theorem namedOnce_dir_iff {entries : List (String × FileEntry)} :
    (dir entries).NamedOnce ↔
      (entries.map Prod.fst).Nodup ∧ ∀ m ∈ entries, m.2.NamedOnce := by
  constructor
  · intro h
    have hnodup : (entries.map Prod.fst).Nodup := h [] entries rfl
    refine ⟨hnodup, fun m hm names inner hinner => h (m.1 :: names) inner ?_⟩
    rw [entryAt?_cons_dir, (Keyed.lookup_eq_some_iff_mem hnodup).mpr hm, Option.bind_some, hinner]
  · rintro ⟨hnodup, hentries⟩ names inner h
    cases names with
    | nil =>
      cases h
      exact hnodup
    | cons n names =>
      obtain ⟨e, he, hinner⟩ := Option.bind_eq_some_iff.mp h
      exact hentries (n, e) ((Keyed.lookup_eq_some_iff_mem hnodup).mp he) names inner hinner

theorem NamedOnce.entryAt? {top e : FileEntry} (h : top.NamedOnce) {names : List String}
    (he : top.entryAt? names = some e) : e.NamedOnce := by
  intro more entries hentries
  apply h (names ++ more)
  rw [entryAt?_append, he, Option.bind_some, hentries]

section Putting

variable {new top : FileEntry} {names : List String} {n : String} {e : FileEntry}
  {entries : List (String × FileEntry)}

theorem mem_insertEntry {m : String × FileEntry} (h : m ∈ insertEntry n e entries) :
    m = (n, e) ∨ m ∈ entries := by
  induction entries with
  | nil => exact .inl (List.mem_singleton.mp h)
  | cons first entries ih =>
    rw [insertEntry] at h
    split at h
    · next heq =>
      rcases List.mem_cons.mp h with rfl | h
      · exact .inl (by rw [heq])
      · exact .inr (List.mem_cons_of_mem _ h)
    · rcases List.mem_cons.mp h with rfl | h
      · exact .inr List.mem_cons_self
      · exact (ih h).imp_right (List.mem_cons_of_mem _)

theorem nodup_insertEntry (h : (entries.map Prod.fst).Nodup) :
    ((insertEntry n e entries).map Prod.fst).Nodup := by
  induction entries with
  | nil => exact List.pairwise_singleton _ n
  | cons first entries ih =>
    obtain ⟨hfirst, hrest⟩ := List.nodup_cons.mp h
    rw [insertEntry]
    split
    · next heq => exact List.nodup_cons.mpr ⟨heq ▸ hfirst, hrest⟩
    · next hne =>
      refine List.nodup_cons.mpr ⟨fun hmem => ?_, ih hrest⟩
      obtain ⟨m, hm, hkey⟩ := List.mem_map.mp hmem
      rcases mem_insertEntry hm with rfl | hm
      · exact hne hkey.symm
      · exact hfirst (List.mem_map.mpr ⟨m, hm, hkey⟩)

theorem put_proper (hnames : ∀ n ∈ names, Path.IsName n) (hnew : new.WellNamed ∧ new.NamedOnce)
    (htop : top.WellNamed ∧ top.NamedOnce) :
    (put new names top).WellNamed ∧ (put new names top).NamedOnce := by
  induction names generalizing top with
  | nil => exact hnew
  | cons n names ih =>
    rw [List.forall_mem_cons] at hnames
    cases top with
    | file bytes => exact htop
    | dir entries =>
      have hwell := allWellNamed_iff.mp htop.1
      obtain ⟨hnodup, honce⟩ := namedOnce_dir_iff.mp htop.2
      -- the way goes on inside the entry of that name, or inside a new directory
      have hinner : ((entries.lookup n).getD (dir [])).WellNamed ∧
          ((entries.lookup n).getD (dir [])).NamedOnce := by
        cases hn : entries.lookup n with
        | none => exact ⟨trivial, namedOnce_dir_iff.mpr ⟨List.nodup_nil, by simp⟩⟩
        | some e =>
          have hmem := (Keyed.lookup_eq_some_iff_mem hnodup).mp hn
          exact ⟨(hwell _ hmem).2, honce _ hmem⟩
      obtain ⟨hput, hputOnce⟩ := ih hnames.2 hinner
      rw [put]
      constructor
      · refine allWellNamed_iff.mpr fun m hm => ?_
        rcases mem_insertEntry hm with rfl | hm
        · exact ⟨hnames.1, hput⟩
        · exact hwell m hm
      · refine namedOnce_dir_iff.mpr ⟨nodup_insertEntry hnodup, fun m hm => ?_⟩
        rcases mem_insertEntry hm with rfl | hm
        · exact hputOnce
        · exact honce m hm

end Putting

section Agreement

variable {top top' here here' : FileEntry} {above above' : List FileEntry} {names : List String}

theorem Stands.length (h : Stands top names here above) : above.length = names.length := by
  induction h with
  | top => rfl
  | inside _ _ ih => simp [ih]

theorem Stands.occupant_eq_directory_iff (h : Stands top names here above) :
    top.occupant names = .directory ↔ ∃ entries, here = .dir entries := by
  rw [FileEntry.occupant, h.entryAt?, seen_eq_directory_iff]
  simp

theorem exists_dir_of_walkComponents {cs : List Component} {entries : List (String × FileEntry)}
    (h : here.walkComponents above cs = .ok (.dir entries)) : ∃ inner, here = .dir inner := by
  cases here with
  | dir inner => exact ⟨inner, rfl⟩
  | file bytes => cases cs <;> cases h

variable (hagree : ∀ place, top.occupant place = .directory → top'.occupant place = .directory)
  {cs : List Component} {entries : List (String × FileEntry)}

include hagree

theorem Stands.exists_dirs (h : Stands top names here above) (h' : Stands top' names here' above')
    (hwalk : here.walkComponents above cs = .ok (.dir entries)) :
    (∃ inner, here = .dir inner) ∧ ∃ inner', here' = .dir inner' := by
  have hdir := exists_dir_of_walkComponents hwalk
  exact ⟨hdir, h'.occupant_eq_directory_iff.mp
    (hagree names (h.occupant_eq_directory_iff.mpr hdir))⟩

theorem Stands.exists_walkComponents_dir (h : Stands top names here above)
    (h' : Stands top' names here' above')
    (hwalk : here.walkComponents above cs = .ok (.dir entries)) :
    ∃ entries', here'.walkComponents above' cs = .ok (.dir entries') := by
  induction cs generalizing names here here' above above' with
  | nil =>
    obtain ⟨-, inner', rfl⟩ := Stands.exists_dirs hagree h h' hwalk
    exact ⟨inner', rfl⟩
  | cons c cs ih =>
    obtain ⟨⟨inner, rfl⟩, inner', rfl⟩ := Stands.exists_dirs hagree h h' hwalk
    have hlength : above'.length = above.length := h'.length.trans h.length.symm
    cases c with
    | root => exact ih h h' hwalk
    | current => exact ih h h' hwalk
    | parent =>
      -- both walks are equally deep, so either both go up or both stay at the root
      cases above with
      | nil =>
        obtain rfl := List.length_eq_zero_iff.mp hlength
        exact ih h h' hwalk
      | cons up above =>
        obtain ⟨up', above', rfl⟩ := List.exists_cons_of_length_eq_add_one hlength
        exact ih h.up h'.up hwalk
    | name n =>
      rw [walkComponents] at hwalk ⊢
      cases hn : inner.lookup n with
      | none => simp only [hn, reduceCtorEq] at hwalk
      | some e =>
        simp only [hn] at hwalk
        have hinside : Stands top (names ++ [n]) e (.dir inner :: above) := h.inside hn
        have hnext := hagree _ (hinside.occupant_eq_directory_iff.mpr
          (exists_dir_of_walkComponents hwalk))
        rw [occupant, entryAt?_concat, h'.entryAt?, Option.bind_some, seen_eq_directory_iff] at hnext
        obtain ⟨next, hnext⟩ := hnext
        have hn' : inner'.lookup n = some (.dir next) := hnext
        simp only [hn']
        exact ih hinside (h'.inside hnext) hwalk

end Agreement

end FileEntry

namespace FileSystem

/-- Entries have proper names, and no two entries of a directory have the same name. -/
structure IsProper (fs : FileSystem) : Prop where
  wellNamed : fs.WellNamed
  namedOnce : fs.root.NamedOnce

variable {fs fs' : FileSystem} {path : String} {entries : List (String × FileEntry)}

theorem IsProper.put (h : fs.IsProper) {names : List String} (hnames : ∀ n ∈ names, Path.IsName n)
    (bytes : ByteArray) :
    IsProper { fs with root := FileEntry.put (.file bytes) names fs.root } := by
  have hnew : (FileEntry.file bytes).WellNamed ∧ (FileEntry.file bytes).NamedOnce :=
    ⟨trivial, FileEntry.namedOnce_file bytes⟩
  obtain ⟨hwell, honce⟩ := FileEntry.put_proper hnames hnew ⟨h.wellNamed.1, h.namedOnce⟩
  exact ⟨⟨hwell, h.wellNamed.2⟩, honce⟩

theorem IsProper.writeFile (h : fs.IsProper) (hrelative : Path.isAbsolute path = false)
    (hparent : .parent ∉ Path.components path) {bytes : ByteArray}
    (hwrite : fs.writeFile path bytes = .ok fs') : fs'.IsProper := by
  have hworking := h.wellNamed.2
  obtain ⟨-, rfl⟩ := (writeFile_eq_ok_iff hworking hrelative hparent).mp hwrite
  refine h.put (fun n hn => ?_) bytes
  rw [location_of_relative hworking hrelative hparent, List.mem_append, namesOf_eq] at hn
  rcases hn with hn | hn
  · exact hworking n hn
  · obtain ⟨c, hc, hname⟩ := List.mem_filterMap.mp hn
    obtain ⟨seg, hseg, hsegment⟩ := List.mem_filterMap.mp hc
    cases c with
    | name m =>
      obtain rfl := Option.some.inj hname
      exact Path.isName_of_segment (Path.slash_notMem_of_mem_splitSlash hseg) hsegment
    | root | current | parent => cases hname

/-- Which paths lead to directories depends only on where the directories are. -/
theorem exists_resolve_dir (hworking : fs'.working = fs.working)
    (hagree : ∀ place, fs.occupant place = .directory → fs'.occupant place = .directory)
    (h : fs.resolve path = .ok (.dir entries)) :
    ∃ entries', fs'.resolve path = .ok (.dir entries') := by
  have hsegs : fs'.fullSegments path.toList = fs.fullSegments path.toList := by
    unfold fullSegments
    rw [hworking]
  unfold resolve at h ⊢
  split at h
  · cases h
  next hne =>
  rw [FileEntry.walk_eq_dir_iff] at h
  rw [if_neg hne, hsegs]
  simp only [FileEntry.walk_eq_dir_iff]
  exact FileEntry.Stands.exists_walkComponents_dir hagree .top .top h

end FileSystem

end EnumCover
