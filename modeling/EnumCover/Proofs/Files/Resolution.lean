import EnumCover.Proofs.Files.Location

namespace EnumCover

namespace Path

def endsInComponent (segs : List (List Char)) : Bool := (segs.getLast?.bind segment?).isSome

theorem endsInComponent_append (as : List (List Char)) {bs : List (List Char)} (h : bs ≠ []) :
    endsInComponent (as ++ bs) = endsInComponent bs := by
  rw [endsInComponent, endsInComponent, List.getLast?_append_of_ne_nil as h]

theorem filterMap_segment?_ne_nil {segs : List (List Char)} (h : endsInComponent segs = true) :
    segs.filterMap segment? ≠ [] := by
  rw [endsInComponent, Option.isSome_iff_exists] at h
  obtain ⟨c, hc⟩ := h
  obtain ⟨seg, hseg, hc⟩ := Option.bind_eq_some_iff.mp hc
  exact List.ne_nil_of_mem (List.mem_filterMap.mpr ⟨seg, List.mem_of_getLast? hseg, hc⟩)

end Path

namespace FileEntry

/-- Goes from a directory along some components; the entries above it are kept for the way back. -/
def walkComponents (here : FileEntry) (above : List FileEntry) :
    List Component → Except FileError FileEntry
  | [] => .ok here
  | c :: cs =>
    match here with
    | file _ => .error .notDirectory
    | dir entries =>
      match c with
      | .root | .current => walkComponents here above cs
      | .parent => match above with
        | [] => walkComponents here [] cs
        | up :: above => walkComponents up above cs
      | .name n => match entries.lookup n with
        | some e => walkComponents e (here :: above) cs
        | none => .error .notFound

/-- A walk is told by its components, unless they lead to a file and more slashes or dots follow. -/
theorem walk_cases (here : FileEntry) (above : List FileEntry) (segs : List (List Char)) :
    here.walk above segs = here.walkComponents above (segs.filterMap Path.segment?) ∨
      (here.walk above segs = .error .notDirectory ∧ Path.endsInComponent segs = false ∧
        ∃ bytes, here.walkComponents above (segs.filterMap Path.segment?) = .ok (.file bytes)) := by
  induction segs generalizing here above with
  | nil => exact .inl rfl
  | cons seg segs ih =>
    -- what goes wrong behind one more segment is the same as without it
    have hrest (here : FileEntry) (above : List FileEntry) :
        here.walk above segs = here.walkComponents above (segs.filterMap Path.segment?) ∨
          (here.walk above segs = .error .notDirectory ∧
            Path.endsInComponent (seg :: segs) = false ∧
            ∃ bytes, here.walkComponents above (segs.filterMap Path.segment?) =
              .ok (.file bytes)) := by
      rcases ih here above with hsame | ⟨hwalk, hends, hfile⟩
      · exact .inl hsame
      · have hne : segs ≠ [] := by
          rintro rfl
          cases hwalk
        exact .inr ⟨hwalk, (Path.endsInComponent_append [seg] hne).trans hends, hfile⟩
    cases here with
    | file bytes =>
      cases hcs : (seg :: segs).filterMap Path.segment? with
      | nil =>
        have hends : Path.endsInComponent (seg :: segs) = false :=
          Bool.eq_false_iff.mpr fun h => Path.filterMap_segment?_ne_nil h hcs
        exact .inr ⟨rfl, hends, bytes, rfl⟩
      | cons c cs => exact .inl rfl
    | dir entries =>
      rcases Path.segment?_cases seg with hseg | hseg | ⟨n, hseg⟩
      · rw [List.filterMap_cons, hseg]
        simpa only [walk, hseg] using hrest (dir entries) above
      · rw [List.filterMap_cons, hseg]
        cases above with
        | nil => simpa only [walk, hseg, walkComponents] using hrest (dir entries) []
        | cons up above => simpa only [walk, hseg, walkComponents] using hrest up above
      · rw [List.filterMap_cons, hseg]
        cases hn : entries.lookup n with
        | none => exact .inl (by simp only [walk, hseg, walkComponents, hn])
        | some e =>
          simpa only [walk, hseg, walkComponents, hn] using hrest e (dir entries :: above)

theorem walk_eq_walkComponents {segs : List (List Char)} (h : Path.endsInComponent segs = true)
    (here : FileEntry) (above : List FileEntry) :
    here.walk above segs = here.walkComponents above (segs.filterMap Path.segment?) := by
  rcases walk_cases here above segs with hsame | ⟨-, hends, -⟩
  · exact hsame
  · rw [h] at hends
    cases hends

/-- Slashes and dots on the way to a directory lead nowhere else. -/
theorem walk_eq_dir_iff {segs : List (List Char)} {here : FileEntry} {above : List FileEntry}
    {entries : List (String × FileEntry)} :
    here.walk above segs = .ok (dir entries) ↔
      here.walkComponents above (segs.filterMap Path.segment?) = .ok (dir entries) := by
  rcases walk_cases here above segs with hsame | ⟨hwalk, -, bytes, hfile⟩
  · rw [hsame]
  · simp [hwalk, hfile]

theorem walk_cons_ok {here e : FileEntry} {above : List FileEntry} {seg : List Char}
    {segs : List (List Char)} (h : here.walk above (seg :: segs) = .ok e) :
    here.isDir = true ∧ ∃ next above', next.walk above' segs = .ok e ∧
      (Path.segment? seg = none → next = here) := by
  cases here with
  | file bytes => cases h
  | dir entries =>
    refine ⟨rfl, ?_⟩
    rcases Path.segment?_cases seg with hseg | hseg | ⟨n, hseg⟩
    · simp only [walk, hseg] at h
      exact ⟨_, above, h, fun _ => rfl⟩
    · cases above with
      | nil =>
        simp only [walk, hseg] at h
        exact ⟨_, _, h, fun _ => rfl⟩
      | cons up above =>
        simp only [walk, hseg] at h
        exact ⟨_, _, h, by simp [hseg]⟩
    · simp only [walk, hseg] at h
      cases hn : entries.lookup n with
      | none => simp only [hn, reduceCtorEq] at h
      | some e =>
        simp only [hn] at h
        exact ⟨_, _, h, by simp [hseg]⟩

theorem endsInComponent_of_walk {here : FileEntry} {above : List FileEntry}
    {segs : List (List Char)} {bytes : ByteArray} (hne : segs ≠ [])
    (h : here.walk above segs = .ok (.file bytes)) : Path.endsInComponent segs = true := by
  induction segs generalizing here above with
  | nil => exact absurd rfl hne
  | cons seg segs ih =>
    obtain ⟨hdir, next, above', hwalk, hsame⟩ := walk_cons_ok h
    by_cases hnil : segs = []
    · subst hnil
      cases hwalk
      have hseg : Path.segment? seg ≠ none := by
        intro hseg
        rw [← hsame hseg] at hdir
        cases hdir
      simpa [Path.endsInComponent, Option.isSome_iff_ne_none] using hseg
    · rw [← List.singleton_append, Path.endsInComponent_append [seg] hnil]
      exact ih hnil hwalk

theorem walkComponents_names {names : List String} {here e : FileEntry}
    {above : List FileEntry} :
    here.walkComponents above (names.map .name) = .ok e ↔ here.entryAt? names = some e := by
  induction names generalizing here above with
  | nil => simp [walkComponents, entryAt?]
  | cons n names ih =>
    cases here with
    | file bytes => simp [walkComponents, entryAt?, lookup?]
    | dir entries =>
      cases hn : entries.lookup n with
      | none => simp [walkComponents, entryAt?, lookup?, hn]
      | some inner => simp [walkComponents, entryAt?, lookup?, hn, ih]

end FileEntry

namespace FileSystem

variable {fs : FileSystem} {p q path : String}

def route (fs : FileSystem) (path : String) : List Component :=
  (fs.fullSegments path.toList).filterMap Path.segment?

theorem route_eq (fs : FileSystem) (path : String) :
    fs.route path =
      (if (Path.splitStart path.toList).1 = some .root then []
        else (fs.working.map String.toList).filterMap Path.segment?) ++
      (Path.splitSlash (Path.splitStart path.toList).2).filterMap Path.segment? := by
  unfold route fullSegments Path.splitStart
  split
  · next rest heq => simp [heq]
  · next hrel =>
    rw [List.filterMap_append]
    split
    · next rest heq => exact absurd heq (hrel rest)
    · next heq => simp [heq, Path.splitSlash, Path.segment?]
    · next rest heq => simp [heq, Path.splitSlash, Path.segment?]
    · rfl

theorem route_congr (h : Path.components p = Path.components q) : fs.route p = fs.route q := by
  have hanchor : Path.anchor p = Path.anchor q := by rw [Path.anchor, Path.anchor, h]
  rw [Path.anchor_eq, Path.anchor_eq] at hanchor
  rw [Path.components_eq, Path.components_eq, hanchor, List.append_cancel_left_eq] at h
  have hstart : (Path.splitStart p.toList).1 = (Path.splitStart q.toList).1 := by
    simpa using congrArg List.head? hanchor
  rw [route_eq, route_eq, hstart, h]

theorem endsInComponent_fullSegments (fs : FileSystem) (path : String) :
    Path.endsInComponent (fs.fullSegments path.toList) =
      Path.endsInComponent (Path.splitSlash path.toList) := by
  unfold fullSegments
  split
  · next rest heq =>
    rw [heq, Path.splitSlash, if_pos rfl, ← List.singleton_append,
      Path.endsInComponent_append _ (Path.splitSlash_ne_nil rest)]
  · exact Path.endsInComponent_append _ (Path.splitSlash_ne_nil _)

theorem resolve_eq (h : Path.endsInComponent (Path.splitSlash path.toList) = true) :
    fs.resolve path = fs.root.walkComponents [] (fs.route path) := by
  have hne : path.toList ≠ [] := by
    intro hnil
    rw [hnil] at h
    cases h
  rw [resolve, if_neg hne, route, FileEntry.walk_eq_walkComponents]
  rw [endsInComponent_fullSegments, h]

/-- Paths with the same components lead to the same entry if both end in a component. -/
theorem resolve_congr (h : Path.components p = Path.components q)
    (hp : Path.endsInComponent (Path.splitSlash p.toList) = true)
    (hq : Path.endsInComponent (Path.splitSlash q.toList) = true) :
    fs.resolve p = fs.resolve q := by
  rw [resolve_eq hp, resolve_eq hq, route_congr h]

theorem endsInComponent_of_resolve {bytes : ByteArray}
    (h : fs.resolve path = .ok (.file bytes)) :
    Path.endsInComponent (Path.splitSlash path.toList) = true := by
  unfold resolve at h
  split at h
  · cases h
  · rw [← fs.endsInComponent_fullSegments]
    refine FileEntry.endsInComponent_of_walk ?_ h
    unfold fullSegments
    split
    · exact Path.splitSlash_ne_nil _
    · exact List.append_ne_nil_of_right_ne_nil _ (Path.splitSlash_ne_nil _)

theorem route_eq_location (hworking : ∀ n ∈ fs.working, Path.IsName n)
    (hparent : .parent ∉ Path.components path) :
    fs.route path = (fs.location path).map .name := by
  have hroute : .parent ∉ fs.route path := by
    rw [route_eq, Path.filterMap_segment?_names hworking, List.mem_append, not_or]
    rw [Path.components_eq, List.mem_append, not_or] at hparent
    exact ⟨by split <;> simp, hparent.2⟩
  have hnames : ((fs.route path).filterMap Component.name?).map .name = fs.route path :=
    Path.map_names (Path.segments_not_anchor _) hroute
  have hlocation : (fs.route path).foldl Component.follow [] = fs.location path :=
    fs.foldl_follow_fullSegments hworking
  rw [← hnames, Component.foldl_follow_names, List.nil_append] at hlocation
  rw [← hlocation, hnames]

end FileSystem

end EnumCover
