import Mathlib.Data.List.Basic
import EnumCover.Path.Components

namespace EnumCover

namespace Path

/-- A text that names an entry of a directory. -/
def IsName (s : String) : Prop := s ≠ "" ∧ s ≠ "." ∧ s ≠ ".." ∧ '/' ∉ s.toList

instance (s : String) : Decidable (IsName s) := inferInstanceAs (Decidable (_ ∧ _ ∧ _ ∧ _))

theorem splitSlash_ne_nil (cs : List Char) : splitSlash cs ≠ [] := by
  cases cs with
  | nil => simp [splitSlash]
  | cons c cs =>
    rw [splitSlash]
    split
    · simp
    · split <;> simp

theorem splitSlash_append (as bs : List Char) :
    splitSlash (as ++ '/' :: bs) = splitSlash as ++ splitSlash bs := by
  induction as with
  | nil => simp [splitSlash]
  | cons a as ih =>
    by_cases ha : a = '/'
    · simp [splitSlash, ha, ih]
    · rw [List.cons_append, splitSlash, if_neg ha, ih, splitSlash, if_neg ha]
      cases has : splitSlash as with
      | nil => exact absurd has (splitSlash_ne_nil as)
      | cons seg segs => rfl

theorem splitSlash_of_not_mem {cs : List Char} (h : '/' ∉ cs) : splitSlash cs = [cs] := by
  induction cs with
  | nil => rfl
  | cons c cs ih =>
    rw [List.mem_cons, not_or] at h
    rw [splitSlash, if_neg (Ne.symm h.1), ih h.2]

theorem IsName.segment_eq {s : String} (h : IsName s) : segment? s.toList = some (.name s) := by
  obtain ⟨h0, h1, h2, -⟩ := h
  have h0' : s.toList ≠ [] := fun he => h0 (String.toList_injective (he.trans rfl))
  have h1' : s.toList ≠ ['.'] := fun he => h1 (String.toList_injective (he.trans rfl))
  have h2' : s.toList ≠ ['.', '.'] := fun he => h2 (String.toList_injective (he.trans rfl))
  simp [segment?, h0', h1', h2']

theorem filterMap_segment?_names {names : List String} (h : ∀ n ∈ names, IsName n) :
    (names.map String.toList).filterMap segment? = names.map Component.name := by
  rw [List.filterMap_map, ← List.filterMap_eq_map]
  exact List.filterMap_congr fun n hn => (h n hn).segment_eq

theorem segment?_eq_none_iff {seg : List Char} : segment? seg = none ↔ seg = [] ∨ seg = ['.'] := by
  unfold segment?
  split
  · next h => simp [h]
  · next h => split <;> simp [h]

theorem segment?_eq_parent_iff {seg : List Char} :
    segment? seg = some .parent ↔ seg = ['.', '.'] := by
  unfold segment?
  split
  · next h => rcases h with rfl | rfl <;> simp
  · split <;> simp_all

theorem isName_of_segment {seg : List Char} {n : String} (hslash : '/' ∉ seg)
    (h : segment? seg = some (.name n)) : IsName n := by
  unfold segment? at h
  split at h
  · cases h
  next hblank =>
  split at h
  · cases h
  next hdots =>
  cases h
  rw [not_or] at hblank
  have hne {cs : List Char} (hcs : seg ≠ cs) : String.ofList seg ≠ String.ofList cs :=
    fun heq => hcs (String.ofList_injective heq)
  exact ⟨hne hblank.1, hne hblank.2, hne hdots, by rwa [String.toList_ofList]⟩

theorem filterMap_splitSlash_append (cs : List Char) {s : String} (h : IsName s) :
    (splitSlash (cs ++ '/' :: s.toList)).filterMap segment? =
      (splitSlash cs).filterMap segment? ++ [.name s] := by
  rw [splitSlash_append, List.filterMap_append, splitSlash_of_not_mem h.2.2.2,
    List.filterMap_cons, h.segment_eq, List.filterMap_nil]

theorem components_eq (path : String) : components path =
    (splitStart path.toList).1.toList ++
      (splitSlash (splitStart path.toList).2).filterMap segment? := rfl

/-- A text that goes on does so after its start, unless it is a dot that becomes part of a name. -/
theorem splitStart_append {as bs : List Char} (has : as ≠ [])
    (h : as = ['.'] → bs.head? = some '/') :
    splitStart (as ++ bs) = ((splitStart as).1, (splitStart as).2 ++ bs) := by
  cases as with
  | nil => exact absurd rfl has
  | cons a as =>
    by_cases hslash : a = '/'
    · subst hslash
      rfl
    by_cases hdot : a = '.'
    · subst hdot
      cases as with
      | nil =>
        obtain ⟨cs, rfl⟩ := List.head?_eq_some_iff.mp (h rfl)
        rfl
      | cons b as =>
        by_cases hb : b = '/'
        · subst hb
          rfl
        · simp [splitStart, hb]
    · simp [splitStart, hslash, hdot]

theorem components_join {dir s : String} (hdir : dir ≠ "") (hs : IsName s) :
    components (join dir s) = components dir ++ [.name s] := by
  have hne : dir.toList ≠ [] := fun he => hdir (String.toList_injective (he.trans rfl))
  unfold join
  rw [if_neg hne]
  split
  · next hlast =>
    obtain ⟨cs, hcs⟩ := List.getLast?_eq_some_iff.mp hlast
    have hlist : (dir ++ s).toList = cs ++ '/' :: s.toList := by simp [hcs]
    rw [components_eq, components_eq, hlist, hcs]
    by_cases hnil : cs = []
    · subst hnil
      have hone := filterMap_splitSlash_append [] hs
      simpa [splitStart, splitSlash, segment?] using hone
    · rw [splitStart_append hnil fun _ => rfl, splitStart_append hnil fun _ => rfl,
        filterMap_splitSlash_append _ hs, splitSlash_append]
      simp [splitSlash, segment?]
  · next hlast =>
    have hlist : (dir ++ "/" ++ s).toList = dir.toList ++ '/' :: s.toList := by simp
    rw [components_eq, components_eq, hlist, splitStart_append hne fun _ => rfl,
      filterMap_splitSlash_append _ hs, List.append_assoc]

theorem join_ne_empty (dir : String) {s : String} (hs : IsName s) : join dir s ≠ "" := by
  intro h
  have hlist : (join dir s).toList = [] := by rw [h]; rfl
  unfold join at hlist
  have hne : s.toList ≠ [] := fun he => hs.1 (String.toList_injective (he.trans rfl))
  split at hlist
  · exact hne hlist
  · split at hlist
    · simp [hne] at hlist
    · simp at hlist

end Path

end EnumCover
