import EnumCover.Command.OutputPath
import EnumCover.Proofs.Path.Stripping

namespace EnumCover

namespace Path

theorem joinSlash_append {as bs : List (List Char)} (has : as ≠ []) (hbs : bs ≠ []) :
    joinSlash (as ++ bs) = joinSlash as ++ '/' :: joinSlash bs := by
  induction as with
  | nil => exact absurd rfl has
  | cons seg as ih =>
    cases as with
    | nil =>
      obtain ⟨b, bs, rfl⟩ := List.exists_cons_of_ne_nil hbs
      rfl
    | cons next as =>
      have hrest : joinSlash (seg :: (next :: as ++ bs)) =
          seg ++ '/' :: joinSlash (next :: as ++ bs) := rfl
      have hfirst : joinSlash (seg :: next :: as) = seg ++ '/' :: joinSlash (next :: as) := rfl
      rw [List.cons_append, hrest, ih (List.cons_ne_nil next as), hfirst, List.append_assoc,
        List.cons_append]

/-- A text without slashes is a segment of another if a slash or an end is on both sides of it. -/
theorem mem_splitSlash_iff {seg cs : List Char} (hseg : '/' ∉ seg) :
    seg ∈ splitSlash cs ↔
      cs = seg ∨ seg ++ ['/'] <+: cs ∨ '/' :: seg <:+ cs ∨ '/' :: (seg ++ ['/']) <:+: cs := by
  constructor
  · intro h
    obtain ⟨before, after, hsplit⟩ := List.append_of_mem h
    have hcs := joinSlash_splitSlash cs
    rw [hsplit] at hcs
    have hafter : after ≠ [] → joinSlash (seg :: after) = seg ++ '/' :: joinSlash after :=
      joinSlash_append (List.cons_ne_nil seg [])
    -- one case for each of the four places that the segment can have
    by_cases hb : before = []
    · subst hb
      by_cases ha : after = []
      · subst ha
        exact .inl hcs.symm
      · rw [List.nil_append, hafter ha] at hcs
        exact .inr (.inl ⟨joinSlash after, by simp [← hcs]⟩)
    · rw [joinSlash_append hb (List.cons_ne_nil seg after)] at hcs
      by_cases ha : after = []
      · subst ha
        exact .inr (.inr (.inl ⟨joinSlash before, hcs⟩))
      · rw [hafter ha] at hcs
        exact .inr (.inr (.inr ⟨joinSlash before, joinSlash after, by simp [← hcs]⟩))
  · have hone : splitSlash seg = [seg] := splitSlash_of_not_mem hseg
    rintro (rfl | ⟨after, rfl⟩ | ⟨before, rfl⟩ | ⟨before, after, rfl⟩)
    · simp [hone]
    · rw [List.append_assoc, List.singleton_append, splitSlash_append, hone]
      simp
    · rw [splitSlash_append, hone]
      simp
    · rw [List.append_assoc, List.cons_append, List.append_assoc, List.singleton_append,
        splitSlash_append, splitSlash_append, hone]
      simp

theorem parent_mem_components_iff (path : String) :
    .parent ∈ components path ↔ ['.', '.'] ∈ splitSlash path.toList := by
  have hsegs (cs : List Char) :
      .parent ∈ (splitSlash cs).filterMap segment? ↔ ['.', '.'] ∈ splitSlash cs := by
    simp [List.mem_filterMap, segment?_eq_parent_iff]
  rw [components_eq, List.mem_append, hsegs]
  unfold splitStart
  split <;> simp [*, splitSlash]

theorem root_notMem_components {path : String} (h : isAbsolute path = false) :
    .root ∉ components path := by
  rw [components_eq, List.mem_append, not_or]
  refine ⟨fun hroot => ?_, fun hroot => segments_not_anchor _ _ hroot (.inl rfl)⟩
  unfold splitStart at hroot
  split at hroot
  · next rest heq => simp [isAbsolute, heq] at h
  all_goals simp at hroot

end Path

/-- Without a root or a parent among them, components lead only further down. -/
theorem Component.prefix_of_mem_scanl {cs : List Component} (hroot : .root ∉ cs)
    (hparent : .parent ∉ cs) {dir place : List String} (h : place ∈ cs.scanl follow dir) :
    dir <+: place := by
  induction cs generalizing dir with
  | nil =>
    rw [List.scanl_nil, List.mem_singleton] at h
    exact h ▸ List.prefix_rfl
  | cons c cs ih =>
    rw [List.mem_cons, not_or] at hroot hparent
    rw [List.scanl_cons, List.mem_cons] at h
    have hstep : dir <+: c.follow dir := by
      cases c with
      | root => exact absurd rfl hroot.1
      | parent => exact absurd rfl hparent.1
      | current => exact List.prefix_rfl
      | name n => exact List.prefix_append dir [n]
    rcases h with rfl | h
    · exact List.prefix_rfl
    · exact hstep.trans (ih hroot.2 hparent.2 h)

namespace OutputPath

theorem check_eq_ok_iff {path out : String} :
    check path = .ok out ↔ out = path ∧ '\x00' ∉ path.toList ∧ Path.isAbsolute path = false ∧
      .parent ∉ Path.components path ∧ goesUp (slashed path) = false := by
  unfold check
  split
  · next h => simp [List.contains_iff_mem.mp h]
  split
  · next h => simp [h]
  split
  · next h => simp [List.contains_iff_mem.mp h]
  split
  · next h => simp [h]
  · next hnull habsolute hparent hup =>
    rw [List.contains_iff_mem] at hnull hparent
    simp [hnull, habsolute, hparent, hup, eq_comm]

theorem goesUp_iff (cs : List Char) :
    goesUp cs = true ↔ ['.', '.'] ∈ Path.splitSlash cs ∧ cs ≠ ['.', '.'] := by
  have hinfix : "/../".toList = '/' :: (['.', '.'] ++ ['/']) := rfl
  have hprefix : "../".toList = ['.', '.'] ++ ['/'] := rfl
  have hsuffix : "/..".toList = '/' :: ['.', '.'] := rfl
  rw [Path.mem_splitSlash_iff (by decide), goesUp, Bool.or_eq_true, Bool.or_eq_true,
    Text.occursIn_iff, List.isPrefixOf_iff_prefix, List.isSuffixOf_iff_suffix, hinfix, hprefix,
    hsuffix]
  constructor
  · intro h
    refine ⟨by tauto, ?_⟩
    rintro rfl
    revert h
    decide
  · tauto

/-- The texts between slashes and backslashes. -/
def segments (path : String) : List (List Char) := path.toList.splitOnP fun c => c = '/' ∨ c = '\\'

def slash (c : Char) : Char := if c = '\\' then '/' else c

theorem slashed_eq (path : String) : slashed path = path.toList.map slash := rfl

theorem slash_eq_dot_iff {c : Char} : slash c = '.' ↔ c = '.' := by
  unfold slash
  split
  · next h => simp [h]
  · rfl

theorem slash_eq_slash_iff {c : Char} : slash c = '/' ↔ c = '/' ∨ c = '\\' := by
  unfold slash
  split
  · next h => simp [h]
  · next h => simp [h]

theorem segments_eq (path : String) : segments path = Path.splitSlash (slashed path) := by
  rw [segments, slashed_eq]
  induction path.toList with
  | nil => rfl
  | cons c cs ih =>
    rw [List.splitOnP_cons_eq_if_modifyHead, ih, List.map_cons, Path.splitSlash]
    by_cases hc : c = '/' ∨ c = '\\'
    · rw [if_pos (decide_eq_true hc), if_pos (slash_eq_slash_iff.mpr hc)]
    · have hsame : slash c = c := if_neg (not_or.mp hc).2
      rw [if_neg (by simpa using hc), hsame, if_neg (not_or.mp hc).1]
      cases hsplit : Path.splitSlash (cs.map slash) with
      | nil => exact absurd hsplit (Path.splitSlash_ne_nil _)
      | cons seg segs => rfl

theorem parent_mem_segments {path : String} (h : .parent ∈ Path.components path) :
    ['.', '.'] ∈ segments path := by
  rw [Path.parent_mem_components_iff, Path.mem_splitSlash_iff (by decide)] at h
  rw [segments_eq, slashed_eq, Path.mem_splitSlash_iff (by decide)]
  rcases h with h | h | h | h
  · exact .inl (by rw [h]; rfl)
  · exact .inr (.inl (h.map slash))
  · exact .inr (.inr (.inl (h.map slash)))
  · exact .inr (.inr (.inr (h.map slash)))

theorem slashed_eq_dots_iff {path : String} :
    slashed path = ['.', '.'] ↔ path.toList = ['.', '.'] := by
  simp only [slashed_eq, List.map_eq_cons_iff, List.map_eq_nil_iff, slash_eq_dot_iff]
  constructor
  · rintro ⟨c, rest, h, rfl, d, rest', rfl, rfl, rfl⟩
    exact h
  · intro h
    exact ⟨'.', ['.'], h, rfl, '.', [], rfl, rfl, rfl⟩

/-- The two searches for a parent together find every segment that goes up. -/
theorem no_parent_iff (path : String) :
    .parent ∉ Path.components path ∧ goesUp (slashed path) = false ↔
      ['.', '.'] ∉ segments path := by
  rw [← Bool.not_eq_true, goesUp_iff, ← segments_eq, ← not_or, not_iff_not]
  constructor
  · rintro (h | h)
    · exact parent_mem_segments h
    · exact h.1
  · intro h
    by_cases hdots : slashed path = ['.', '.']
    · rw [Path.parent_mem_components_iff, slashed_eq_dots_iff.mp hdots]
      exact .inl (by decide)
    · exact .inr ⟨h, hdots⟩

end OutputPath

/-- A path is accepted for a report exactly if it has no null byte, does not start with a slash and
has no segment between slashes and backslashes that goes up. It is then accepted as it is, and
following its components one by one from a directory leads to places below that directory only. -/
theorem output_path_confined (path : String) :
    ((∃ out, OutputPath.check path = .ok out) ↔
      '\x00' ∉ path.toList ∧ path.toList.head? ≠ some '/' ∧
        ['.', '.'] ∉ OutputPath.segments path) ∧
    ∀ out, OutputPath.check path = .ok out → out = path ∧
      ∀ dir, ∀ place ∈ (Path.components out).scanl Component.follow dir, dir <+: place := by
  have habsolute : Path.isAbsolute path = false ↔ path.toList.head? ≠ some '/' := by
    rw [Path.isAbsolute, beq_eq_false_iff_ne]
  constructor
  · rw [← habsolute, ← OutputPath.no_parent_iff]
    constructor
    · rintro ⟨out, hout⟩
      exact (OutputPath.check_eq_ok_iff.mp hout).2
    · intro h
      exact ⟨path, OutputPath.check_eq_ok_iff.mpr ⟨rfl, h⟩⟩
  · intro out hout
    obtain ⟨rfl, -, hrelative, hparent, -⟩ := OutputPath.check_eq_ok_iff.mp hout
    refine ⟨rfl, fun dir place hplace => ?_⟩
    exact Component.prefix_of_mem_scanl (Path.root_notMem_components hrelative) hparent hplace

example : OutputPath.check "out\\..\\report.txt" = .error .traversal ∧
    OutputPath.check ".." = .error .parent ∧
    OutputPath.check "./out\\..report..txt" = .ok "./out\\..report..txt" := by decide

end EnumCover
