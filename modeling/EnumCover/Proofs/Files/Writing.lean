import EnumCover.Proofs.Files.Resolution

namespace EnumCover

/-- What is seen at a place without looking into a directory. -/
inductive Occupant where
  | nothing
  | directory
  | file (bytes : ByteArray)

namespace FileEntry

def seen : Option FileEntry → Occupant
  | none => .nothing
  | some (dir _) => .directory
  | some (file bytes) => .file bytes

/-- What is seen below an entry at the end of some names. -/
def occupant (place : List String) (e : FileEntry) : Occupant := seen (e.entryAt? place)

theorem seen_eq_directory_iff {e : Option FileEntry} :
    seen e = .directory ↔ ∃ entries, e = some (dir entries) := by
  cases e with
  | none => simp [seen]
  | some e => cases e <;> simp [seen]

theorem seen_eq_file_iff {e : Option FileEntry} {bytes : ByteArray} :
    seen e = .file bytes ↔ e = some (file bytes) := by
  cases e with
  | none => simp [seen]
  | some e => cases e <;> simp [seen]

theorem occupant_cons_dir (n : String) (place : List String)
    (entries : List (String × FileEntry)) :
    (dir entries).occupant (n :: place) =
      seen ((entries.lookup n).bind (entryAt? place)) := rfl

theorem occupant_cons_eq_directory {n : String} {place : List String} {e : FileEntry}
    (h : e.occupant (n :: place) = .directory) :
    ∃ entries inner, e = dir entries ∧ entries.lookup n = some inner ∧
      inner.occupant place = .directory := by
  cases e with
  | file bytes => cases h
  | dir entries =>
    rw [occupant_cons_dir] at h
    cases hn : entries.lookup n with
    | none =>
      rw [hn] at h
      cases h
    | some inner =>
      rw [hn] at h
      exact ⟨entries, inner, rfl, hn, h⟩

theorem lookup_insertEntry (m n : String) (e : FileEntry) (entries : List (String × FileEntry)) :
    (insertEntry n e entries).lookup m = if m = n then some e else entries.lookup m := by
  have hcons (k : String) (old : FileEntry) (rest : List (String × FileEntry)) :
      ((k, old) :: rest).lookup m = if m = k then some old else rest.lookup m := by
    by_cases h : m = k
    · simp [h]
    · simp [List.lookup_cons, beq_eq_false_iff_ne.mpr h, h]
  induction entries with
  | nil => rw [insertEntry, hcons]
  | cons entry entries ih =>
    obtain ⟨k, old⟩ := entry
    rw [insertEntry, hcons]
    by_cases hk : k = n
    · rw [if_pos hk, hcons, ← hk]
      split <;> rfl
    · rw [if_neg hk, hcons, ih]
      by_cases hm : m = k
      · rw [if_pos hm, if_pos hm, if_neg (hm ▸ hk)]
      · rw [if_neg hm, if_neg hm]

theorem occupant_below {n : String} {entries : List (String × FileEntry)}
    (h : (dir entries).occupant [n] ≠ .directory) (m : String) (place : List String) :
    (dir entries).occupant (n :: m :: place) = .nothing := by
  rw [occupant_cons_dir] at h ⊢
  cases hn : entries.lookup n with
  | none => rfl
  | some e =>
    rw [hn] at h
    cases e with
    | file bytes => rfl
    | dir inner => exact absurd rfl h

/-- A file that is put into a directory that is there changes what is seen at its own place only. -/
theorem occupant_put {names : List String} {n : String} {top : FileEntry} (bytes : ByteArray)
    (hdir : top.occupant names = .directory) (hvacant : top.occupant (names ++ [n]) ≠ .directory)
    (place : List String) :
    (put (file bytes) (names ++ [n]) top).occupant place =
      if place = names ++ [n] then .file bytes else top.occupant place := by
  induction names generalizing top place with
  | nil =>
    obtain ⟨entries, rfl⟩ : ∃ entries, top = dir entries := by
      simpa [occupant, entryAt?, seen_eq_directory_iff] using hdir
    cases place with
    | nil => rfl
    | cons m place =>
      -- Below the new file there is nothing, and there was nothing before, as `n` was no directory.
      rw [List.nil_append, put, put, occupant_cons_dir, lookup_insertEntry]
      by_cases hm : m = n
      · subst hm
        cases place with
        | nil => simp [entryAt?, seen]
        | cons k place => simp [entryAt?, lookup?, seen, occupant_below hvacant]
      · simp [hm, occupant_cons_dir]
  | cons d names ih =>
    obtain ⟨entries, inner, rfl, hd, hinner⟩ := occupant_cons_eq_directory hdir
    rw [List.cons_append, occupant_cons_dir, hd] at hvacant
    cases place with
    | nil => rfl
    | cons m place =>
      rw [List.cons_append, put, occupant_cons_dir, lookup_insertEntry, hd]
      by_cases hm : m = d
      · subst hm
        have hold : (dir entries).occupant (m :: place) = inner.occupant place := by
          rw [occupant_cons_dir, hd]
          rfl
        rw [hold, if_pos rfl]
        simpa [occupant] using ih hinner hvacant place
      · simp [hm, occupant_cons_dir]

end FileEntry

namespace FileSystem

variable {fs fs' : FileSystem} {path : String} {bytes : ByteArray}

def occupant (fs : FileSystem) (place : List String) : Occupant := fs.root.occupant place

/-- A file can be written at a path: it ends in a component, its directory is there, and no
directory stands at its end. -/
@[mk_iff] structure CanWrite (fs : FileSystem) (path : String) : Prop where
  endsInComponent : Path.endsInComponent (Path.splitSlash path.toList) = true
  directory : fs.occupant (fs.location path).dropLast = .directory
  vacant : fs.occupant (fs.location path) ≠ .directory

theorem writeFile_ne_ok_of_slash {dirs : List (List Char)}
    (hsplit : Path.splitSlash path.toList = dirs ++ [[]]) : fs.writeFile path bytes ≠ .ok fs' := by
  have hshort : ((dirs ++ [[]]).reverse.dropWhile (· == [])).reverse.length <
      (dirs ++ [([] : List Char)]).length := by
    have hle := ((List.dropWhile_sublist (· == [])).length_le : _ ≤ dirs.reverse.length)
    simpa using Nat.lt_succ_of_le hle
  unfold writeFile
  simp only [hsplit, if_pos hshort]
  split
  · exact nofun
  · split
    · exact nofun
    · exact nofun
    · split <;> exact nofun

/-- Writing in terms of the segments of a path, of which the last is the name of the file. -/
theorem writeFile_eq_ok_iff_of_splitSlash {dirs : List (List Char)} {last : List Char}
    (hsplit : Path.splitSlash path.toList = dirs ++ [last]) :
    fs.writeFile path bytes = .ok fs' ↔
      (∃ n entries, Path.segment? last = some (.name n) ∧
        fs.root.walk [] (fs.working.map String.toList ++ dirs) = .ok (.dir entries) ∧
        ∀ inner, entries.lookup n ≠ some (.dir inner)) ∧
      fs' = { fs with
        root := FileEntry.put (.file bytes) (fs.working ++ namesOf (dirs ++ [last])) fs.root } := by
  by_cases hlast : last = []
  · subst hlast
    simp [writeFile_ne_ok_of_slash hsplit, Path.segment?]
  have hne : path.toList ≠ [] := by
    intro hnil
    have hends := congrArg List.getLast? hsplit
    exact hlast (by simpa [hnil, Path.splitSlash, eq_comm] using hends)
  have hbody : ((dirs ++ [last]).reverse.dropWhile (· == [])).reverse = dirs ++ [last] := by
    simp [hlast]
  unfold writeFile
  simp only [if_neg hne, hsplit, hbody, List.dropLast_concat, List.getLast?_concat,
    Option.bind_some, Nat.lt_irrefl, if_false]
  cases fs.root.walk [] (fs.working.map String.toList ++ dirs) with
  | error e => simp
  | ok e =>
    cases e with
    | file bytes => simp
    | dir entries =>
      rcases Path.segment?_cases last with hseg | hseg | ⟨n, hseg⟩
      · simp [hseg]
      · simp [hseg]
      · cases hn : entries.lookup n with
        | none => simp [hseg, hn, eq_comm]
        | some e => cases e <;> simp [hseg, hn, eq_comm]

theorem namesOf_eq (segs : List (List Char)) :
    namesOf segs = (segs.filterMap Path.segment?).filterMap Component.name? := by
  apply congrArg fun f => (segs.filterMap Path.segment?).filterMap f
  funext c
  cases c <;> rfl

section Relative

variable (hworking : ∀ n ∈ fs.working, Path.IsName n) (hrelative : Path.isAbsolute path = false)

include hworking hrelative

theorem route_of_relative : fs.route path =
    fs.working.map .name ++ (Path.splitSlash path.toList).filterMap Path.segment? := by
  have hsegs : fs.fullSegments path.toList =
      fs.working.map String.toList ++ Path.splitSlash path.toList := by
    unfold fullSegments
    split
    · next rest heq => simp [Path.isAbsolute, heq] at hrelative
    · rfl
  rw [route, hsegs, List.filterMap_append, Path.filterMap_segment?_names hworking]

variable (hparent : .parent ∉ Path.components path)

include hparent

theorem segments_of_relative : (Path.splitSlash path.toList).filterMap Path.segment? =
    (namesOf (Path.splitSlash path.toList)).map .name := by
  have hnames : .parent ∉ (Path.splitSlash path.toList).filterMap Path.segment? := by
    intro hmem
    have hroute := List.mem_append_right (fs.working.map Component.name) hmem
    rw [← route_of_relative hworking hrelative, route_eq_location hworking hparent] at hroute
    simp at hroute
  rw [namesOf_eq, Path.map_names (Path.segments_not_anchor _) hnames]

theorem location_of_relative :
    fs.location path = fs.working ++ namesOf (Path.splitSlash path.toList) := by
  have hroute := route_eq_location hworking hparent
  rw [route_of_relative hworking hrelative, segments_of_relative hworking hrelative hparent,
    ← List.map_append] at hroute
  exact (List.map_injective_iff.mpr (fun _ _ h => Component.name.inj h) hroute).symm

theorem walk_directory {dirs : List (List Char)} {last : List Char} {n : String}
    (hsplit : Path.splitSlash path.toList = dirs ++ [last])
    (hlast : Path.segment? last = some (.name n)) :
    fs.location path = (fs.location path).dropLast ++ [n] ∧ ∀ entries,
      fs.root.walk [] (fs.working.map String.toList ++ dirs) = .ok (.dir entries) ↔
        fs.root.entryAt? (fs.location path).dropLast = some (.dir entries) := by
  have hsegs := segments_of_relative hworking hrelative hparent
  have hlocation := location_of_relative hworking hrelative hparent
  have hnames : namesOf (dirs ++ [last]) = namesOf dirs ++ [n] := by simp [namesOf, hlast]
  rw [hsplit, hnames, ← List.append_assoc] at hlocation
  rw [hsplit, hnames, List.filterMap_append, List.map_append] at hsegs
  have hdirs : dirs.filterMap Path.segment? = (namesOf dirs).map .name :=
    List.append_inj_left' hsegs (by simp [hlast])
  rw [hlocation, List.dropLast_concat]
  refine ⟨rfl, fun entries => ?_⟩
  rw [FileEntry.walk_eq_dir_iff, List.filterMap_append, Path.filterMap_segment?_names hworking,
    hdirs, ← List.map_append, FileEntry.walkComponents_names]

theorem canWrite_iff_of_splitSlash {dirs : List (List Char)} {last : List Char}
    (hsplit : Path.splitSlash path.toList = dirs ++ [last]) :
    fs.CanWrite path ↔
      ∃ n entries, Path.segment? last = some (.name n) ∧
        fs.root.walk [] (fs.working.map String.toList ++ dirs) = .ok (.dir entries) ∧
        ∀ inner, entries.lookup n ≠ some (.dir inner) := by
  have hends : Path.endsInComponent (Path.splitSlash path.toList) =
      (Path.segment? last).isSome := by simp [hsplit, Path.endsInComponent]
  have hsegs := segments_of_relative hworking hrelative hparent
  -- only a name can be written at, as a segment that stands for nothing ends no path
  rcases Path.segment?_cases last with hlast | hlast | ⟨n, hlast⟩
  · simp [canWrite_iff, hends, hlast]
  · rw [hsplit, List.filterMap_append] at hsegs
    have hmem : .parent ∈ (namesOf (dirs ++ [last])).map Component.name := by
      rw [← hsegs]
      simp [hlast]
    simp at hmem
  · obtain ⟨hconcat, hwalk⟩ := walk_directory hworking hrelative hparent hsplit hlast
    have hoccupant {entries : List (String × FileEntry)}
        (h : fs.root.entryAt? (fs.location path).dropLast = some (.dir entries)) :
        fs.occupant (fs.location path) = FileEntry.seen (entries.lookup n) := by
      rw [hconcat, occupant, FileEntry.occupant, FileEntry.entryAt?_concat, h]
      rfl
    simp only [hlast, hwalk]
    constructor
    · rintro ⟨-, hdir, hvacant⟩
      obtain ⟨entries, hentries⟩ := FileEntry.seen_eq_directory_iff.mp hdir
      refine ⟨n, entries, rfl, hentries, fun inner hinner => hvacant ?_⟩
      rw [hoccupant hentries, hinner]
      rfl
    · rintro ⟨m, entries, hm, hentries, hvacant⟩
      cases hm
      have hdir := FileEntry.seen_eq_directory_iff.mpr ⟨entries, hentries⟩
      refine ⟨by rw [hends, hlast]; rfl, hdir, ?_⟩
      rw [hoccupant hentries, ne_eq, FileEntry.seen_eq_directory_iff, not_exists]
      exact hvacant

/-- A file is written exactly if it can be, and then it is put at the location of the path. -/
theorem writeFile_eq_ok_iff : fs.writeFile path bytes = .ok fs' ↔
    fs.CanWrite path ∧
      fs' = { fs with root := FileEntry.put (.file bytes) (fs.location path) fs.root } := by
  obtain ⟨dirs, last, hsplit⟩ :=
    (List.eq_nil_or_concat' _).resolve_left (Path.splitSlash_ne_nil path.toList)
  rw [writeFile_eq_ok_iff_of_splitSlash hsplit,
    canWrite_iff_of_splitSlash hworking hrelative hparent hsplit, ← hsplit,
    location_of_relative hworking hrelative hparent]

end Relative

end FileSystem

end EnumCover
