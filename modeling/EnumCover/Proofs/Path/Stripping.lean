import Mathlib.Data.List.DropRight
import EnumCover.Proofs.Files.Location

namespace EnumCover

namespace Path

theorem slash_notMem_of_mem_splitSlash {cs seg : List Char} (h : seg ∈ splitSlash cs) :
    '/' ∉ seg := by
  induction cs generalizing seg with
  | nil =>
    rw [splitSlash, List.mem_singleton] at h
    rw [h]
    exact List.not_mem_nil
  | cons c cs ih =>
    by_cases hc : c = '/'
    · rw [splitSlash, if_pos hc] at h
      rcases List.mem_cons.mp h with rfl | h
      · exact List.not_mem_nil
      · exact ih h
    · rw [splitSlash, if_neg hc] at h
      cases hsplit : splitSlash cs with
      | nil => exact absurd hsplit (splitSlash_ne_nil cs)
      | cons first segs =>
        rw [hsplit] at h ih
        rcases List.mem_cons.mp h with rfl | h
        · rw [List.mem_cons, not_or]
          exact ⟨Ne.symm hc, ih List.mem_cons_self⟩
        · exact ih (List.mem_cons_of_mem _ h)

theorem exists_joinSlash_cons (seg : List Char) (segs : List (List Char)) :
    ∃ tail, joinSlash (seg :: segs) = seg ++ tail := by
  cases segs with
  | nil => exact ⟨[], (List.append_nil seg).symm⟩
  | cons next segs => exact ⟨'/' :: joinSlash (next :: segs), rfl⟩

theorem splitSlash_joinSlash {segs : List (List Char)} (hne : segs ≠ [])
    (hslash : ∀ seg ∈ segs, '/' ∉ seg) : splitSlash (joinSlash segs) = segs := by
  induction segs with
  | nil => exact absurd rfl hne
  | cons seg segs ih =>
    rw [List.forall_mem_cons] at hslash
    cases segs with
    | nil => exact splitSlash_of_not_mem hslash.1
    | cons next segs =>
      rw [joinSlash, splitSlash_append, splitSlash_of_not_mem hslash.1,
        ih (List.cons_ne_nil next segs) hslash.2, List.singleton_append]
      exact List.cons_ne_nil next segs

theorem joinSlash_splitSlash (cs : List Char) : joinSlash (splitSlash cs) = cs := by
  induction cs with
  | nil => rfl
  | cons c cs ih =>
    cases hsplit : splitSlash cs with
    | nil => exact absurd hsplit (splitSlash_ne_nil cs)
    | cons first segs =>
      rw [hsplit] at ih
      by_cases hc : c = '/'
      · rw [splitSlash, if_pos hc, hsplit, hc]
        exact congrArg ('/' :: ·) ih
      · rw [splitSlash, if_neg hc, hsplit, ← ih]
        cases segs <;> rfl

section Trimming

variable (segs : List (List Char))

theorem filterMap_joinSlash (hslash : ∀ seg ∈ segs, '/' ∉ seg) :
    (splitSlash (joinSlash segs)).filterMap segment? = segs.filterMap segment? := by
  by_cases hne : segs = []
  · rw [hne]
    rfl
  · rw [splitSlash_joinSlash hne hslash]

theorem filterMap_dropWhile :
    (segs.dropWhile fun seg => (segment? seg).isNone).filterMap segment? =
      segs.filterMap segment? := by
  induction segs with
  | nil => rfl
  | cons seg segs ih =>
    cases hseg : segment? seg with
    | none => rw [List.dropWhile_cons_of_pos (by rw [hseg]; rfl), ih, List.filterMap_cons, hseg]
    | some c => rw [List.dropWhile_cons_of_neg (by rw [hseg]; exact Bool.false_ne_true)]

theorem trimEnd_eq : trimEnd segs = segs.rdropWhile fun seg => (segment? seg).isNone := rfl

theorem filterMap_trimEnd : (trimEnd segs).filterMap segment? = segs.filterMap segment? := by
  rw [trimEnd, List.filterMap_reverse, filterMap_dropWhile, List.filterMap_reverse,
    List.reverse_reverse]

theorem filterMap_trim : (trim segs).filterMap segment? = segs.filterMap segment? := by
  rw [trim, filterMap_trimEnd, filterMap_dropWhile]

theorem trimEnd_isPrefix : trimEnd segs <+: segs := by
  rw [trimEnd_eq]
  exact List.rdropWhile_prefix _ segs

theorem mem_of_mem_trim {segs : List (List Char)} {seg : List Char} (h : seg ∈ trim segs) :
    seg ∈ segs :=
  List.dropWhile_subset _ ((trimEnd_isPrefix _).subset h)

theorem trimEnd_eq_nil {segs : List (List Char)} (h : segs.filterMap segment? = []) :
    trimEnd segs = [] := by
  rw [trimEnd_eq, List.rdropWhile_eq_nil_iff]
  intro seg hseg
  rw [List.filterMap_eq_nil_iff.mp h seg hseg]
  rfl

theorem trim_eq_nil {segs : List (List Char)} (h : segs.filterMap segment? = []) :
    trim segs = [] :=
  trimEnd_eq_nil ((filterMap_dropWhile segs).trans h)

theorem segment?_head_trim {segs rest : List (List Char)} {seg : List Char}
    (h : trim segs = seg :: rest) : segment? seg ≠ none := by
  have hpre := trimEnd_isPrefix (segs.dropWhile fun seg => (segment? seg).isNone)
  rw [← trim, h] at hpre
  obtain ⟨tail, htail⟩ := hpre
  have hhead := List.head?_dropWhile_not (fun seg => (segment? seg).isNone) segs
  rw [← htail] at hhead
  intro hnone
  simp [hnone] at hhead

end Trimming

section Reading

variable {segs : List (List Char)}

theorem splitStart_of_segment {seg tail : List Char} (hseg : segment? seg ≠ none)
    (hslash : '/' ∉ seg) : splitStart (seg ++ tail) = (none, seg ++ tail) := by
  have hne : seg ≠ [] := by
    rintro rfl
    exact hseg rfl
  have hdot : seg ≠ ['.'] := by
    rintro rfl
    exact hseg rfl
  have hstart : splitStart seg = (none, seg) := by
    unfold splitStart
    split
    · exact absurd List.mem_cons_self hslash
    · exact absurd rfl hdot
    · simp at hslash
    · rfl
  rw [splitStart_append hne fun h => absurd h hdot, hstart]

theorem components_joinSlash (hslash : ∀ seg ∈ segs, '/' ∉ seg)
    (hhead : ∀ seg ∈ segs.head?, segment? seg ≠ none) :
    components (String.ofList (joinSlash segs)) = segs.filterMap segment? := by
  cases segs with
  | nil => rfl
  | cons seg segs =>
    obtain ⟨tail, htail⟩ := exists_joinSlash_cons seg segs
    have hstart : splitStart (joinSlash (seg :: segs)) = (none, joinSlash (seg :: segs)) := by
      rw [htail]
      exact splitStart_of_segment (hhead seg rfl) (hslash seg List.mem_cons_self)
    rw [components_eq, String.toList_ofList, hstart, filterMap_joinSlash _ hslash]
    rfl

theorem components_trim (hslash : ∀ seg ∈ segs, '/' ∉ seg) :
    components (String.ofList (joinSlash (trim segs))) = segs.filterMap segment? := by
  rw [components_joinSlash, filterMap_trim]
  · exact fun seg hseg => hslash seg (mem_of_mem_trim hseg)
  · intro seg hseg
    obtain ⟨rest, hrest⟩ := List.head?_eq_some_iff.mp hseg
    exact segment?_head_trim hrest

end Reading

section Dropping

variable {cs : List Component} {segs rest : List (List Char)}

theorem dropComponents_eq_some (h : dropComponents cs segs = some rest) :
    rest <:+ segs ∧ segs.filterMap segment? = cs ++ rest.filterMap segment? := by
  induction segs generalizing cs with
  | nil =>
    cases cs with
    | nil =>
      obtain rfl := Option.some.inj h
      exact ⟨List.suffix_rfl, rfl⟩
    | cons c cs => cases h
  | cons seg segs ih =>
    cases cs with
    | nil =>
      obtain rfl := Option.some.inj h
      exact ⟨List.suffix_rfl, rfl⟩
    | cons c cs =>
      rw [dropComponents] at h
      -- a segment that stands for nothing is dropped without using up a component
      cases hseg : segment? seg with
      | none =>
        obtain ⟨hsuffix, hcs⟩ := ih (by rwa [hseg] at h)
        exact ⟨hsuffix.trans (List.suffix_cons seg segs), by rw [List.filterMap_cons, hseg, hcs]⟩
      | some d =>
        rw [hseg] at h
        dsimp only at h
        split at h
        · next hcd =>
          obtain ⟨hsuffix, hcs⟩ := ih h
          refine ⟨hsuffix.trans (List.suffix_cons seg segs), ?_⟩
          rw [List.filterMap_cons, hseg, hcd]
          exact congrArg (d :: ·) hcs
        · cases h

theorem components_of_dropComponents (hslash : ∀ seg ∈ segs, '/' ∉ seg)
    (h : dropComponents cs segs = some rest) :
    segs.filterMap segment? = cs ++ components (String.ofList (joinSlash (trim rest))) ∧
      (components (String.ofList (joinSlash (trim rest))) = [] → joinSlash (trim rest) = []) := by
  obtain ⟨hsuffix, hsegs⟩ := dropComponents_eq_some h
  rw [components_trim fun seg hseg => hslash seg (hsuffix.subset hseg)]
  refine ⟨hsegs, fun hnil => ?_⟩
  rw [trim_eq_nil hnil]
  rfl

theorem exists_dropComponents (h : cs <+: segs.filterMap segment?) :
    ∃ rest, dropComponents cs segs = some rest := by
  induction segs generalizing cs with
  | nil =>
    obtain rfl := List.prefix_nil.mp h
    exact ⟨[], rfl⟩
  | cons seg segs ih =>
    cases cs with
    | nil => exact ⟨seg :: segs, rfl⟩
    | cons c cs =>
      rw [dropComponents]
      cases hseg : segment? seg with
      | none => exact ih (by rwa [List.filterMap_cons, hseg] at h)
      | some d =>
        rw [List.filterMap_cons, hseg, List.cons_prefix_cons] at h
        obtain ⟨rest, hrest⟩ := ih h.2
        exact ⟨rest, by rw [← hrest]; exact if_pos h.1⟩

end Dropping

section Starting

theorem splitStart_eq_of_none {cs : List Char} (h : (splitStart cs).1 = none) :
    splitStart cs = (none, cs) := by
  unfold splitStart at h ⊢
  split at h
  · cases h
  · cases h
  · cases h
  · rfl

theorem segment?_head_of_splitStart {cs : List Char} (hstart : (splitStart cs).1 = none)
    (hne : cs ≠ []) : ∀ seg ∈ (splitSlash cs).head?, segment? seg ≠ none := by
  intro seg hseg hnone
  obtain ⟨segs, hsplit⟩ := List.head?_eq_some_iff.mp hseg
  have hcs : joinSlash (seg :: segs) = cs := by rw [← hsplit, joinSlash_splitSlash]
  rcases segment?_eq_none_iff.mp hnone with rfl | rfl <;> cases segs <;> subst hcs
  · exact hne rfl
  · cases hstart
  · cases hstart
  · cases hstart

theorem splitStart_trimEnd (path : List Char) :
    splitStart (startChars (splitStart path).1 ++
        joinSlash (trimEnd (splitSlash (splitStart path).2))) =
      ((splitStart path).1, joinSlash (trimEnd (splitSlash (splitStart path).2))) := by
  by_cases hstart : (splitStart path).1 = none
  · have hchars : startChars none = [] := rfl
    rw [splitStart_eq_of_none hstart, hchars, List.nil_append]
    by_cases hpath : path = []
    · rw [hpath]
      rfl
    cases htrim : trimEnd (splitSlash path) with
    | nil => rfl
    | cons seg segs =>
      have hpre := trimEnd_isPrefix (splitSlash path)
      rw [htrim] at hpre
      have hseg : seg ∈ (splitSlash path).head? := by
        obtain ⟨more, hmore⟩ := hpre
        rw [← hmore]
        rfl
      obtain ⟨tail, htail⟩ := exists_joinSlash_cons seg segs
      rw [htail]
      exact splitStart_of_segment (segment?_head_of_splitStart hstart hpath seg hseg)
        (slash_notMem_of_mem_splitSlash (List.mem_of_mem_head? hseg))
  · unfold splitStart at hstart ⊢
    split at hstart
    · rfl
    · rfl
    · next cs =>
      -- The dot stays in front of the slash behind it, if anything follows that slash.
      have hpre := trimEnd_isPrefix (splitSlash ('/' :: cs))
      cases htrim : trimEnd (splitSlash ('/' :: cs)) with
      | nil => rfl
      | cons seg segs =>
        rw [htrim] at hpre
        obtain rfl : seg = [] := (List.cons_prefix_cons.mp hpre).1
        cases segs <;> rfl
    · exact absurd rfl hstart

theorem components_trimEnd (path : String) :
    components (String.ofList (startChars (splitStart path.toList).1 ++
      joinSlash (trimEnd (splitSlash (splitStart path.toList).2)))) = components path := by
  have hslash : ∀ seg ∈ trimEnd (splitSlash (splitStart path.toList).2), '/' ∉ seg :=
    fun seg hseg => slash_notMem_of_mem_splitSlash ((trimEnd_isPrefix _).subset hseg)
  rw [components_eq, String.toList_ofList, splitStart_trimEnd, filterMap_joinSlash _ hslash,
    filterMap_trimEnd, components_eq]

end Starting

section Stripping

variable {base path : String} {rest : List Char}

/-- What is left of a path has the components that are left, and is empty if there are none. -/
theorem stripPrefixChars?_eq_some (h : stripPrefixChars? base.toList path.toList = some rest) :
    components path = components base ++ components (String.ofList rest) ∧
      (components (String.ofList rest) = [] → rest = []) := by
  have hslash : ∀ seg ∈ splitSlash (splitStart path.toList).2, '/' ∉ seg :=
    fun _ => slash_notMem_of_mem_splitSlash
  rw [stripPrefixChars?, String.ofList_toList] at h
  dsimp only at h
  split at h
  · next hbase =>
    obtain rfl := Option.some.inj h
    rw [hbase, components_trimEnd]
    refine ⟨rfl, fun hnil => ?_⟩
    rw [components_eq, List.append_eq_nil_iff, Option.toList_eq_nil_iff] at hnil
    rw [hnil.1, trimEnd_eq_nil hnil.2]
    rfl
  · next hnone _ =>
    obtain ⟨segs, hsegs, rfl⟩ := Option.map_eq_some_iff.mp h
    rw [components_eq, hnone]
    exact components_of_dropComponents hslash hsegs
  · next c cs d hbase hstart =>
    split at h
    · next hcd =>
      obtain ⟨segs, hsegs, rfl⟩ := Option.map_eq_some_iff.mp h
      obtain ⟨hcs, hempty⟩ := components_of_dropComponents hslash hsegs
      refine ⟨?_, hempty⟩
      rw [components_eq, hstart, hbase, hcs, hcd]
      rfl
    · cases h

theorem exists_stripPrefixChars? (h : components base <+: components path) :
    ∃ rest, stripPrefixChars? base.toList path.toList = some rest := by
  rw [stripPrefixChars?, String.ofList_toList]
  dsimp only
  rw [components_eq path] at h
  split
  · exact ⟨_, rfl⟩
  · next hnone _ =>
    rw [hnone] at h
    obtain ⟨segs, hsegs⟩ := exists_dropComponents h
    exact ⟨_, by rw [hsegs]; rfl⟩
  · next c cs d hbase hstart =>
    rw [hbase, hstart] at h
    obtain ⟨hcd, hcs⟩ := List.cons_prefix_cons.mp h
    obtain ⟨segs, hsegs⟩ := exists_dropComponents hcs
    exact ⟨_, by rw [if_pos hcd, hsegs]; rfl⟩

end Stripping

end Path

/-- A file name loses the directory that it is seen from only if its components begin with those of
the directory and at least one of them is left; it then has exactly those that are left. In every
other case it is unchanged, so also if a component of the directory is only the beginning of one of
the file name. -/
theorem relativeTo_strips_components (base file : String) :
    (∀ rest, rest ≠ [] → Path.components file = Path.components base ++ rest →
      Path.components (Path.relativeTo base file) = rest) ∧
    ((¬∃ rest, rest ≠ [] ∧ Path.components file = Path.components base ++ rest) →
      Path.relativeTo base file = file) ∧
    (∀ common c cs d ds, Path.components base = common ++ c :: cs →
      Path.components file = common ++ d :: ds → c ≠ d → Path.relativeTo base file = file) := by
  have hunchanged : (¬∃ rest, rest ≠ [] ∧ Path.components file = Path.components base ++ rest) →
      Path.relativeTo base file = file := by
    intro hnot
    rw [Path.relativeTo]
    split
    · rfl
    · rfl
    · next rest hne hstrip =>
      obtain ⟨hcomponents, hempty⟩ := Path.stripPrefixChars?_eq_some hstrip
      refine absurd ⟨_, fun hnil => ?_, hcomponents⟩ hnot
      exact hne (hempty hnil)
  refine ⟨?_, hunchanged, ?_⟩
  · intro rest hne hfile
    obtain ⟨chars, hstrip⟩ := Path.exists_stripPrefixChars? ⟨rest, hfile.symm⟩
    obtain ⟨hcomponents, -⟩ := Path.stripPrefixChars?_eq_some hstrip
    have hrest : Path.components (String.ofList chars) = rest :=
      List.append_cancel_left (hcomponents.symm.trans hfile)
    rw [Path.relativeTo, hstrip]
    cases chars with
    | nil => exact absurd hrest.symm hne
    | cons c chars => exact hrest
  · intro common c cs d ds hbase hfile hcd
    -- no extension of the directory can differ from it at `c`
    apply hunchanged
    rintro ⟨rest, -, hrest⟩
    rw [hbase, hfile, List.append_assoc, List.append_cancel_left_eq] at hrest
    exact hcd (List.cons.inj hrest).1.symm

example : Path.relativeTo "/work/." "//work//./cal/month.go/" = "cal/month.go" ∧
    Path.relativeTo "/work" "/workshop/a.go" = "/workshop/a.go" := by decide

end EnumCover
