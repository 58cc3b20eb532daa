import Mathlib.Data.List.Nodup

namespace EnumCover.Keyed

variable {β : Type} {l : List (String × β)} {key : String} {b : β}

theorem mem_of_lookup (h : l.lookup key = some b) : (key, b) ∈ l := by
  obtain ⟨before, after, rfl, -⟩ := List.lookup_eq_some_iff.mp h
  exact List.mem_append_right before List.mem_cons_self

theorem lookup_eq_some_iff_mem (hnodup : (l.map Prod.fst).Nodup) :
    l.lookup key = some b ↔ (key, b) ∈ l := by
  refine ⟨mem_of_lookup, fun h => ?_⟩
  obtain ⟨before, after, rfl⟩ := List.append_of_mem h
  refine List.lookup_eq_some_iff.mpr ⟨before, after, rfl, fun m hm => bne_iff_ne.mpr fun hn => ?_⟩
  rw [List.map_append, List.nodup_append] at hnodup
  exact hnodup.2.2 m.1 (List.mem_map_of_mem hm) key List.mem_cons_self hn.symm

end EnumCover.Keyed
