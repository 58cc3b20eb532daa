import Mathlib.Data.List.Perm.Basic
import EnumCover.Proofs.Traversal.Nodes

namespace EnumCover

theorem pairwise_zipIdx {α : Type} (l : List α) (k : Nat) :
    (l.zipIdx k).Pairwise fun p q => p.2 < q.2 := by
  rw [← List.pairwise_map (f := Prod.snd), List.zipIdx_map_snd]
  exact List.pairwise_lt_range'

namespace Visit

/-- The order of the addresses below a node if every node comes after the first `cut` nodes directly
inside it, with all that these hold, and before the others. -/
def Precedes (cut : Visit → Nat) : Visit → Address → Address → Prop
  | _, [], [] => False
  | v, [], j :: _ => cut v ≤ j
  | v, i :: _, [] => i < cut v
  | v, i :: a, j :: b => i < j ∨ i = j ∧ ∃ c, v.children[i]? = some c ∧ Precedes cut c a b

/-- The addresses are those of all switches below a node, each once and in order, and the list has
the switches that stand there. -/
structure Enumerates (cut : Visit → Nat) (v : Visit) (as : List Address) (l : List Switch) :
    Prop where
  nodup : as.Nodup
  ordered : as.Pairwise (Precedes cut v)
  mem_iff : ∀ a, a ∈ as ↔ ∃ s, v.at? a = some (switch s)
  found : as.map v.at? = l.map fun s => some (switch s)

variable {cut : Visit → Nat}

theorem not_precedes_self (v : Visit) (a : Address) : ¬Precedes cut v a a := by
  induction a generalizing v with
  | nil => exact id
  | cons i a ih =>
    intro hor
    rcases hor with h | ⟨-, c, -, h⟩
    · exact Nat.lt_irrefl i h
    · exact ih c h

section Children

variable {v : Visit} {A : Visit → List Address} {ps : List (Visit × Nat)}

def below (A : Visit → List Address) (p : Visit × Nat) : List Address := (A p.1).map (p.2 :: ·)

theorem mem_below_iff (p : Visit × Nat) (a : Address) :
    a ∈ below A p ↔ ∃ b ∈ A p.1, a = p.2 :: b := by
  simp only [below, List.mem_map, eq_comm]

theorem mem_zipIdx_take_iff {n : Nat} (p : Visit × Nat) :
    p ∈ (v.children.take n).zipIdx ↔ p.2 < n ∧ v.children[p.2]? = some p.1 := by
  rw [List.mem_zipIdx_iff_getElem?, List.getElem?_take]
  split <;> simp [*]

theorem mem_zipIdx_drop_iff {n : Nat} (p : Visit × Nat) :
    p ∈ (v.children.drop n).zipIdx (v.children.take n).length ↔
      n ≤ p.2 ∧ v.children[p.2]? = some p.1 := by
  rw [List.mem_zipIdx_iff_le_and_getElem?_sub, List.getElem?_drop, List.length_take]
  constructor
  · intro hex
    obtain ⟨hle, hget⟩ := hex
    -- a node after the cut exists, so the cut is not past the end
    have hlt := (List.getElem?_eq_some_iff.mp hget).1
    have hmin : min n v.children.length = n := by omega
    rw [hmin] at hle hget
    rw [Nat.add_sub_cancel' hle] at hget
    exact ⟨hle, hget⟩
  · intro hex
    obtain ⟨hle, hget⟩ := hex
    have hlt := (List.getElem?_eq_some_iff.mp hget).1
    have hmin : min n v.children.length = n := by omega
    rw [hmin, Nat.add_sub_cancel' hle]
    exact ⟨hle, hget⟩

theorem below_ordered (hA : ∀ c ∈ v.children, (A c).Pairwise (Precedes cut c))
    (hp : ∀ p ∈ ps, v.children[p.2]? = some p.1) (hlt : ps.Pairwise fun p q => p.2 < q.2) :
    (ps.flatMap (below A)).Pairwise (Precedes cut v) := by
  rw [List.pairwise_flatMap]
  constructor
  · intro p hmem
    have hget := hp p hmem
    rw [below, List.pairwise_map]
    exact (hA p.1 (List.mem_of_getElem? hget)).imp fun h => .inr ⟨rfl, p.1, hget, h⟩
  · apply hlt.imp
    intro p q hpq a ha b hb
    obtain ⟨a, -, rfl⟩ := (mem_below_iff p a).mp ha
    obtain ⟨b, -, rfl⟩ := (mem_below_iff q b).mp hb
    exact .inl hpq

theorem map_at?_below {list : Visit → List Switch}
    (hA : ∀ c ∈ v.children, (A c).map c.at? = (list c).map fun s => some (switch s))
    (hp : ∀ p ∈ ps, v.children[p.2]? = some p.1) :
    (ps.flatMap (below A)).map v.at? =
      ((ps.map Prod.fst).flatMap list).map fun s => some (switch s) := by
  rw [List.map_flatMap, List.flatMap_map, List.map_flatMap]
  apply List.flatMap_congr
  intro p hmem
  have hget := hp p hmem
  rw [← hA p.1 (List.mem_of_getElem? hget), below, List.map_map]
  apply List.map_congr_left
  intro a _
  simp only [Function.comp_apply, at?, hget, Option.bind_some]

/-- The addresses of a node whose own address comes after the first `n` nodes directly inside. -/
def joined (n : Nat) (v : Visit) (A : Visit → List Address) : List Address :=
  (v.children.take n).zipIdx.flatMap (below A) ++
    (v.switch?.toList.map (fun _ => []) ++
      ((v.children.drop n).zipIdx (v.children.take n).length).flatMap (below A))

theorem nil_mem_joined_iff (n : Nat) : [] ∈ joined n v A ↔ ∃ s, v = switch s := by
  have hb (p : Visit × Nat) : [] ∉ below A p := by
    intro h
    obtain ⟨b, -, hb⟩ := (mem_below_iff p []).mp h
    exact List.cons_ne_nil _ _ hb.symm
  cases v <;> simp [joined, switch?, hb]

theorem cons_mem_joined_iff (n i : Nat) (a : Address) :
    i :: a ∈ joined n v A ↔ ∃ c, v.children[i]? = some c ∧ a ∈ A c := by
  have hb (p : Visit × Nat) : i :: a ∈ below A p ↔ p.2 = i ∧ a ∈ A p.1 := by
    simp [below, and_comm]
  simp only [joined, List.mem_append, List.mem_flatMap, hb, mem_zipIdx_take_iff,
    mem_zipIdx_drop_iff, List.mem_map, List.nil_eq, reduceCtorEq, and_false, exists_false,
    false_or]
  constructor
  · intro hor
    rcases hor with ⟨p, ⟨-, hget⟩, rfl, ha⟩ | ⟨p, ⟨-, hget⟩, rfl, ha⟩
    · exact ⟨p.1, hget, ha⟩
    · exact ⟨p.1, hget, ha⟩
  · intro hex
    obtain ⟨c, hget, ha⟩ := hex
    rcases Nat.lt_or_ge i n with h | h
    · exact .inl ⟨(c, i), ⟨h, hget⟩, rfl, ha⟩
    · exact .inr ⟨(c, i), ⟨h, hget⟩, rfl, ha⟩

theorem joined_ordered (hA : ∀ c ∈ v.children, (A c).Pairwise (Precedes cut c)) :
    (joined (cut v) v A).Pairwise (Precedes cut v) := by
  have hearly : ∀ a ∈ (v.children.take (cut v)).zipIdx.flatMap (below A),
      ∃ i b, a = i :: b ∧ i < cut v := by
    intro a ha
    obtain ⟨p, hp, ha⟩ := List.mem_flatMap.mp ha
    obtain ⟨b, -, rfl⟩ := (mem_below_iff p a).mp ha
    exact ⟨p.2, b, rfl, ((mem_zipIdx_take_iff p).mp hp).1⟩
  have hlate : ∀ a ∈ ((v.children.drop (cut v)).zipIdx
      (v.children.take (cut v)).length).flatMap (below A), ∃ i b, a = i :: b ∧ cut v ≤ i := by
    intro a ha
    obtain ⟨p, hp, ha⟩ := List.mem_flatMap.mp ha
    obtain ⟨b, -, rfl⟩ := (mem_below_iff p a).mp ha
    exact ⟨p.2, b, rfl, ((mem_zipIdx_drop_iff p).mp hp).1⟩
  have hown : ∀ a ∈ v.switch?.toList.map (fun _ => ([] : Address)), a = [] := by
    intro a ha
    obtain ⟨-, -, rfl⟩ := List.mem_map.mp ha
    rfl
  -- the first nodes inside, the node itself, the other nodes inside
  rw [joined, List.pairwise_append, List.pairwise_append]
  refine ⟨?_, ⟨?_, ?_, ?_⟩, ?_⟩
  · exact below_ordered hA (fun p hp => ((mem_zipIdx_take_iff p).mp hp).2) (pairwise_zipIdx _ _)
  · cases v <;> simp [switch?]
  · exact below_ordered hA (fun p hp => ((mem_zipIdx_drop_iff p).mp hp).2) (pairwise_zipIdx _ _)
  · intro a ha b hb
    obtain rfl := hown a ha
    obtain ⟨j, b, rfl, hj⟩ := hlate b hb
    exact hj
  · intro a ha b hb
    obtain ⟨i, a, rfl, hi⟩ := hearly a ha
    rcases List.mem_append.mp hb with hb | hb
    · obtain rfl := hown b hb
      exact hi
    · obtain ⟨j, b, rfl, hj⟩ := hlate b hb
      exact .inl (Nat.lt_of_lt_of_le hi hj)

end Children

/-- A list of switches that is built from the nodes directly inside has every switch once. -/
theorem exists_enumerates {list : Visit → List Switch} (h : ListedBy cut list) (v : Visit) :
    ∃ as, Enumerates cut v as (list v) := by
  induction v using children_induction with
  | step v ih =>
    -- the addresses below a node are those of the nodes inside, with one more step in front
    choose! A hA using ih
    have hord : (joined (cut v) v A).Pairwise (Precedes cut v) :=
      joined_ordered fun c hc => (hA c hc).ordered
    refine ⟨joined (cut v) v A, ?_, hord, ?_, ?_⟩
    · apply hord.imp
      rintro a _ hab rfl
      exact not_precedes_self v a hab
    · intro a
      cases a with
      | nil => simp only [nil_mem_joined_iff, at?, Option.some.injEq]
      | cons i a =>
        rw [cons_mem_joined_iff]
        constructor
        · intro hex
          obtain ⟨c, hget, ha⟩ := hex
          obtain ⟨s, hs⟩ := ((hA c (List.mem_of_getElem? hget)).mem_iff a).mp ha
          exact ⟨s, by simpa only [at?, hget, Option.bind_some] using hs⟩
        · intro hex
          obtain ⟨s, hs⟩ := hex
          obtain ⟨c, hget, hs⟩ := Option.bind_eq_some_iff.mp hs
          exact ⟨c, hget, ((hA c (List.mem_of_getElem? hget)).mem_iff a).mpr ⟨s, hs⟩⟩
    · have hfound : ∀ c ∈ v.children, (A c).map c.at? = (list c).map fun s => some (switch s) :=
        fun c hc => (hA c hc).found
      rw [h v, joined]
      simp only [List.map_append]
      rw [map_at?_below hfound fun p hp => ((mem_zipIdx_take_iff p).mp hp).2,
        map_at?_below hfound fun p hp => ((mem_zipIdx_drop_iff p).mp hp).2,
        List.zipIdx_map_fst, List.zipIdx_map_fst]
      congr 2
      cases v <;> simp [switch?, at?]

theorem Enumerates.hasSwitch_iff {v : Visit} {as : List Address} {l : List Switch}
    (h : Enumerates cut v as l) (s : Switch) : v.HasSwitch s ↔ s ∈ l := by
  have hmem : some (switch s) ∈ as.map v.at? ↔ s ∈ l := by
    rw [h.found, List.mem_map]
    constructor
    · intro hex
      obtain ⟨s', hs', he⟩ := hex
      obtain rfl := switch.inj (Option.some.inj he)
      exact hs'
    · exact fun hs => ⟨s, hs, rfl⟩
  rw [← hmem, List.mem_map]
  constructor
  · intro hex
    obtain ⟨a, ha⟩ := hex
    exact ⟨a, (h.mem_iff a).mpr ⟨s, ha⟩, ha⟩
  · intro hex
    obtain ⟨a, -, ha⟩ := hex
    exact ⟨a, ha⟩

theorem Enumerates.perm {cut' : Visit → Nat} {v : Visit} {as as' : List Address}
    {l l' : List Switch} (h : Enumerates cut v as l) (h' : Enumerates cut' v as' l') :
    l.Perm l' := by
  have has : as.Perm as' := by
    rw [List.perm_ext_iff_of_nodup h.nodup h'.nodup]
    intro a
    rw [h.mem_iff, h'.mem_iff]
  have hmap := has.map v.at?
  rw [h.found, h'.found] at hmap
  refine (List.map_perm_map_iff ?_).mp hmap
  intro s s' he
  exact switch.inj (Option.some.inj he)

theorem hasSwitch_iff_mem_switches (v : Visit) (s : Switch) : v.HasSwitch s ↔ s ∈ v.switches := by
  obtain ⟨as, h⟩ := exists_enumerates switches_listed v
  exact h.hasSwitch_iff s

theorem switches_perm_metSwitches (v : Visit) : v.switches.Perm v.metSwitches := by
  obtain ⟨as, h⟩ := exists_enumerates switches_listed v
  obtain ⟨as', h'⟩ := exists_enumerates metSwitches_listed v
  exact h.perm h'

/-- No switch below a node has another switch in its init statement. -/
def InitFree (v : Visit) : Prop :=
  ∀ s, v.HasSwitch s → ∀ init, s.init = some init → ∀ inner, ¬(stmt init).HasSwitch inner

theorem HasSwitch.of_child {v c : Visit} {s : Switch} (hc : c ∈ v.children)
    (h : c.HasSwitch s) : v.HasSwitch s := by
  obtain ⟨i, hi, rfl⟩ := List.getElem_of_mem hc
  obtain ⟨a, ha⟩ := h
  exact ⟨i :: a, by rw [at?, List.getElem?_eq_getElem hi]; exact ha⟩

theorem InitFree.take_switches_eq_nil {v : Visit} (h : v.InitFree) :
    (v.children.take v.initCount).flatMap switches = [] := by
  cases v with
  | switch s =>
    have hlen : (s.init.toList.map stmt).length = s.init.toList.length := List.length_map _
    rw [children, initCount, ← hlen, List.take_left, List.flatMap_map, List.flatMap_eq_nil_iff]
    intro init hinit
    rw [List.eq_nil_iff_forall_not_mem]
    intro inner hinner
    exact h s ⟨[], rfl⟩ init (Option.mem_toList.mp hinit) inner
      ((hasSwitch_iff_mem_switches (stmt init) inner).mpr hinner)
  | file | decl | stmt | clause | expr => rfl

theorem InitFree.switches_eq {v : Visit} (h : v.InitFree) : v.switches = v.metSwitches := by
  induction v using children_induction with
  | step v ih =>
    have hc : v.children.flatMap metSwitches = v.children.flatMap switches :=
      List.flatMap_congr fun c hc => (ih c hc fun s hs => h s (hs.of_child hc)).symm
    have hsplit : v.children.flatMap switches =
        (v.children.drop v.initCount).flatMap switches := by
      calc v.children.flatMap switches
          = (v.children.take v.initCount ++ v.children.drop v.initCount).flatMap switches := by
            rw [List.take_append_drop]
        _ = (v.children.drop v.initCount).flatMap switches := by
            rw [List.flatMap_append, h.take_switches_eq_nil, List.nil_append]
    rw [switches_listed v, metSwitches_listed v, h.take_switches_eq_nil, List.take_zero,
      List.flatMap_nil, List.drop_zero, hc, hsplit]

end Visit

end EnumCover
