import Mathlib.Data.List.Basic
import EnumCover.Files.Tree
import EnumCover.Proofs.Keyed
import EnumCover.Proofs.Path.Segments

namespace EnumCover

namespace Component

/-- Goes one component further, from one list of names to another. -/
def follow (names : List String) : Component → List String
  | root => []
  | current => names
  | parent => names.dropLast
  | name n => names ++ [n]

def name? : Component → Option String
  | name n => some n
  | _ => none

end Component

namespace Path

theorem segment?_cases (seg : List Char) :
    segment? seg = none ∨ segment? seg = some .parent ∨ ∃ n, segment? seg = some (.name n) := by
  unfold segment?
  split
  · exact .inl rfl
  · split
    · exact .inr (.inl rfl)
    · exact .inr (.inr ⟨_, rfl⟩)

end Path

namespace FileEntry

mutual
/-- All entries have proper names. -/
def WellNamed : FileEntry → Prop
  | file _ => True
  | dir entries => AllWellNamed entries

def AllWellNamed : List (String × FileEntry) → Prop
  | [] => True
  | (n, e) :: rest => Path.IsName n ∧ e.WellNamed ∧ AllWellNamed rest
end

/-- A property of files that directories have if all their entries do holds of every entry. -/
theorem entries_induction {P : FileEntry → Prop} (file : ∀ bytes, P (.file bytes))
    (dir : ∀ entries, (∀ m ∈ entries, P m.2) → P (.dir entries)) (e : FileEntry) : P e :=
  @FileEntry.rec P (fun entries => ∀ m ∈ entries, P m.2) (fun m => P m.2) file dir
    (fun _ hm => absurd hm List.not_mem_nil)
    (fun _ _ hfirst hrest => List.forall_mem_cons.mpr ⟨hfirst, hrest⟩) (fun _ _ he => he) e

/-- What stands below an entry at the end of some names. -/
def entryAt? : List String → FileEntry → Option FileEntry
  | [], e => some e
  | n :: names, e => (e.lookup? n).bind (entryAt? names)

theorem entryAt?_append (names more : List String) (e : FileEntry) :
    e.entryAt? (names ++ more) = (e.entryAt? names).bind (entryAt? more) := by
  induction names generalizing e with
  | nil => rfl
  | cons n names ih => cases h : e.lookup? n <;> simp [entryAt?, h, ih]

theorem entryAt?_concat (names : List String) (n : String) (e : FileEntry) :
    entryAt? (names ++ [n]) e = (entryAt? names e).bind (lookup? n) := by
  rw [entryAt?_append]
  congr
  funext e
  exact Option.bind_fun_some _

theorem allWellNamed_iff {entries : List (String × FileEntry)} :
    AllWellNamed entries ↔ ∀ m ∈ entries, Path.IsName m.1 ∧ m.2.WellNamed := by
  induction entries with
  | nil => simp [AllWellNamed]
  | cons m entries ih =>
    rw [List.forall_mem_cons, ← ih, and_assoc]
    rfl

theorem WellNamed.of_entryAt? {top e : FileEntry} (h : top.WellNamed) {names : List String}
    (he : top.entryAt? names = some e) : e.WellNamed ∧ ∀ n ∈ names, Path.IsName n := by
  induction names generalizing top with
  | nil =>
    cases he
    exact ⟨h, by simp⟩
  | cons n names ih =>
    obtain ⟨inner, hinner, hrest⟩ := Option.bind_eq_some_iff.mp he
    cases top with
    | file bytes => cases hinner
    | dir entries =>
      obtain ⟨hn, hwell⟩ := allWellNamed_iff.mp h (n, inner) (Keyed.mem_of_lookup hinner)
      obtain ⟨hwell, hnames⟩ := ih hwell hrest
      exact ⟨hwell, List.forall_mem_cons.mpr ⟨hn, hnames⟩⟩

/-- An entry stands at the end of some names below `top`, and `above` are the entries on the way,
the nearest first. -/
inductive Stands (top : FileEntry) : List String → FileEntry → List FileEntry → Prop
  | top : Stands top [] top []
  | inside {names : List String} {here e : FileEntry} {above : List FileEntry} {n : String}
    (h : Stands top names here above) (hn : here.lookup? n = some e) :
    Stands top (names ++ [n]) e (here :: above)

theorem Stands.entryAt? {top e : FileEntry} {names : List String} {above : List FileEntry}
    (h : Stands top names e above) : entryAt? names top = some e := by
  induction h with
  | top => rfl
  | inside _ hn ih => rw [entryAt?_concat, ih, Option.bind_some, hn]

theorem Stands.up {top e up : FileEntry} {names : List String} {above : List FileEntry}
    (h : Stands top names e (up :: above)) : Stands top names.dropLast up above := by
  cases h with
  | inside h _ => rwa [List.dropLast_concat]

theorem Stands.eq_nil {top e : FileEntry} {names : List String} (h : Stands top names e []) :
    names = [] := by
  cases h
  rfl

/-- Walking along segments ends where their components lead. -/
theorem Stands.walk {top here e : FileEntry} {names : List String} {above : List FileEntry}
    {segs : List (List Char)} (h : Stands top names here above)
    (hwalk : here.walk above segs = .ok e) :
    FileEntry.entryAt? ((segs.filterMap Path.segment?).foldl Component.follow names) top =
      some e := by
  induction segs generalizing names here above with
  | nil =>
    cases hwalk
    exact h.entryAt?
  | cons seg segs ih =>
    cases here with
    | file bytes => cases hwalk
    | dir entries =>
      rcases Path.segment?_cases seg with hseg | hseg | ⟨n, hseg⟩
      · rw [List.filterMap_cons, hseg]
        simp only [FileEntry.walk, hseg] at hwalk
        exact ih h hwalk
      · rw [List.filterMap_cons, hseg]
        simp only [FileEntry.walk, hseg] at hwalk
        -- above the root there is nothing, so going up stays there
        cases above with
        | nil =>
          obtain rfl := h.eq_nil
          exact ih h hwalk
        | cons up above => exact ih h.up hwalk
      · rw [List.filterMap_cons, hseg]
        simp only [FileEntry.walk, hseg] at hwalk
        cases hn : entries.lookup n with
        | none =>
          simp only [hn, reduceCtorEq] at hwalk
        | some e' =>
          simp only [hn] at hwalk
          exact ih (h.inside hn) hwalk

end FileEntry

namespace Path

/-- The slash or the dot that a path starts with, if any. -/
def anchor (path : String) : List Component :=
  (components path).filter fun c => c = .root ∨ c = .current

def names (path : String) : List String :=
  (components path).filterMap Component.name?

theorem splitStart_anchor (cs : List Char) :
    ∀ c ∈ (splitStart cs).1.toList, c = .root ∨ c = .current := by
  unfold splitStart
  split <;> simp

theorem segments_not_anchor (segs : List (List Char)) :
    ∀ c ∈ segs.filterMap segment?, ¬(c = .root ∨ c = .current) := by
  intro c hc
  obtain ⟨seg, -, hseg⟩ := List.mem_filterMap.mp hc
  rcases segment?_cases seg with h | h | ⟨n, h⟩ <;> rw [h] at hseg <;> cases hseg <;> simp

theorem anchor_eq (path : String) : anchor path = (splitStart path.toList).1.toList := by
  rw [anchor, components_eq, List.filter_append,
    List.filter_eq_self.mpr fun c hc => decide_eq_true (splitStart_anchor _ c hc),
    List.filter_eq_nil_iff.mpr fun c hc => by simpa using segments_not_anchor _ c hc,
    List.append_nil]

theorem map_names {cs : List Component} (h : ∀ c ∈ cs, ¬(c = .root ∨ c = .current))
    (hparent : .parent ∉ cs) : (cs.filterMap Component.name?).map .name = cs := by
  induction cs with
  | nil => rfl
  | cons c cs ih =>
    rw [List.forall_mem_cons] at h
    rw [List.mem_cons, not_or] at hparent
    have htail := ih h.2 hparent.2
    cases c with
    | name n => simp [Component.name?, htail]
    | root => exact absurd (.inl rfl) h.1
    | current => exact absurd (.inr rfl) h.1
    | parent => exact absurd rfl hparent.1

theorem components_eq_anchor_append {path : String} (h : .parent ∉ components path) :
    components path = anchor path ++ (names path).map .name := by
  rw [components_eq, List.mem_append, not_or] at h
  have hstart : (splitStart path.toList).1.toList.filterMap Component.name? = [] := by
    rw [List.filterMap_eq_nil_iff]
    intro c hc
    rcases splitStart_anchor _ c hc with rfl | rfl <;> rfl
  rw [names, components_eq, List.filterMap_append, hstart, List.nil_append,
    map_names (segments_not_anchor _) h.2, anchor_eq]

end Path

theorem Component.foldl_follow_names (start names : List String) :
    (names.map Component.name).foldl Component.follow start = start ++ names := by
  induction names generalizing start with
  | nil => simp
  | cons n names ih => simp [Component.follow, ih]

namespace FileSystem

/-- All entries, and the names that lead to the working directory, are proper names. -/
def WellNamed (fs : FileSystem) : Prop := fs.root.WellNamed ∧ ∀ n ∈ fs.working, Path.IsName n

variable (fs : FileSystem)

/-- The names that lead from the root to the end of a path. -/
def location (path : String) : List String :=
  (Path.components path).foldl Component.follow fs.working

/-- Paths without parents that start alike lead to one place only if they have one spelling. -/
theorem components_eq_of_location_eq {p q : String} (hp : .parent ∉ Path.components p)
    (hq : .parent ∉ Path.components q) (hanchor : Path.anchor p = Path.anchor q)
    (h : fs.location p = fs.location q) : Path.components p = Path.components q := by
  rw [location, location, Path.components_eq_anchor_append hp, Path.components_eq_anchor_append hq,
    List.foldl_append, List.foldl_append, Component.foldl_follow_names,
    Component.foldl_follow_names, hanchor, List.append_cancel_left_eq] at h
  rw [Path.components_eq_anchor_append hp, Path.components_eq_anchor_append hq, hanchor, h]

theorem foldl_follow_relative (names : List String) {cs : List Char}
    (h : ∀ rest, cs ≠ '/' :: rest) :
    ((Path.splitSlash cs).filterMap Path.segment?).foldl Component.follow names =
      ((Path.splitStart cs).1.toList ++
        (Path.splitSlash (Path.splitStart cs).2).filterMap Path.segment?).foldl
        Component.follow names := by
  unfold Path.splitStart
  split
  · next rest => exact absurd rfl (h rest)
  · simp [Path.splitSlash, Path.segment?, Component.follow]
  · simp [Path.splitSlash, Path.segment?, Component.follow]
  · rfl

theorem foldl_follow_fullSegments {path : String} (hworking : ∀ n ∈ fs.working, Path.IsName n) :
    ((fs.fullSegments path.toList).filterMap Path.segment?).foldl Component.follow [] =
      fs.location path := by
  unfold fullSegments
  rw [location, Path.components_eq]
  split
  · next rest heq => rw [heq]; rfl
  · next hrel =>
    rw [List.filterMap_append, List.foldl_append, Path.filterMap_segment?_names hworking,
      Component.foldl_follow_names, List.nil_append]
    exact foldl_follow_relative fs.working hrel

/-- What stands at a path is what stands at its location. -/
theorem entryAt?_location {path : String} {e : FileEntry}
    (hfs : fs.WellNamed) (h : fs.resolve path = .ok e) :
    FileEntry.entryAt? (fs.location path) fs.root = some e := by
  unfold resolve at h
  split at h
  · cases h
  · rw [← fs.foldl_follow_fullSegments hfs.2]
    exact FileEntry.Stands.top.walk h

end FileSystem

end EnumCover
