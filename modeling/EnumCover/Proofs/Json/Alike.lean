import EnumCover.Proofs.Json.Refinement

namespace EnumCover

open Reading (Le IsValue)

namespace Node

/-- The same value, up to lines and the order of members. -/
inductive Alike : Node → Node → Prop
  | null (l l' : Nat) : Alike (null l) (null l')
  | bool (l l' : Nat) (b : Bool) : Alike (bool l b) (bool l' b)
  | number (l l' : Nat) (n : Numeral) : Alike (number l n) (number l' n)
  | string (l l' : Nat) (s : Option String) : Alike (string l s) (string l' s)
  | array {l l' k k' : Nat} {xs ys : List Node} (h : List.Forall₂ Alike xs ys) :
    Alike (array l xs (.closed k)) (array l' ys (.closed k'))
  | object {l l' k k' : Nat} {ms ms' zs : List (Key × Node)}
    (hkeys : ms.map (·.1.text) = zs.map (·.1.text))
    (hvalues : List.Forall₂ Alike (ms.map (·.2)) (zs.map (·.2))) (hperm : zs.Perm ms') :
    Alike (object l ms (.closed k)) (object l' ms' (.closed k'))

def AlikeMember (m m' : Key × Node) : Prop := m.1.text = m'.1.text ∧ Alike m.2 m'.2

theorem forall₂_alikeMember_iff {ms zs : List (Key × Node)} :
    List.Forall₂ AlikeMember ms zs ↔ ms.map (·.1.text) = zs.map (·.1.text) ∧
      List.Forall₂ Alike (ms.map (·.2)) (zs.map (·.2)) := by
  induction ms generalizing zs with
  | nil => cases zs <;> simp
  | cons m ms ih =>
    cases zs with
    | nil => simp
    | cons z zs =>
      simp only [List.forall₂_cons, ih, List.map_cons, List.cons.injEq, AlikeMember]
      tauto

theorem Alike.of_members {l l' k k' : Nat} {ms ms' zs : List (Key × Node)}
    (h : List.Forall₂ AlikeMember ms zs) (hperm : zs.Perm ms') :
    Alike (.object l ms (.closed k)) (.object l' ms' (.closed k')) :=
  .object (forall₂_alikeMember_iff.mp h).1 (forall₂_alikeMember_iff.mp h).2 hperm

namespace Alike

variable {α κ : Type} {n n' : Node}

theorem isValue_skip (h : Alike n n') : IsValue n'.skip := by
  cases h <;> simp [skip, Stop.pass]

theorem sameKind (h : Alike n n') : SameKind n n' := by
  intro κ kinds byIndex
  cases h with
  | string _ _ s => cases s <;> rfl
  | _ => rfl

theorem forall₂_under {ms zs : List (Key × Node)} (h : List.Forall₂ AlikeMember ms zs)
    (name : String) : List.Forall₂ Alike (under name ms) (under name zs) := by
  induction h with
  | nil => exact .nil
  | cons h _ ih =>
    rw [under_cons, under_cons, h.1]
    split
    · exact .cons h.2 ih
    · exact ih

theorem matches_under {ms zs ms' : List (Key × Node)} (h : List.Forall₂ AlikeMember ms zs)
    (hperm : zs.Perm ms') (name : String) :
    Matches Alike (under name ms) (under name ms') :=
  ⟨_, forall₂_under h name, (hperm.filter _).map _⟩

theorem passable {names : List String} {ms zs ms' : List (Key × Node)}
    (h : List.Forall₂ AlikeMember ms zs) (hperm : zs.Perm ms')
    (hm : ∀ m ∈ ms, Passable names m) : ∀ m ∈ ms', Passable names m := by
  have hz : ∀ z ∈ zs, Passable names z := by
    clear hperm
    induction h with
    | nil => simp
    | cons h _ ih =>
      obtain ⟨⟨s, hs, -⟩, hm⟩ := List.forall_mem_cons.mp hm
      exact List.forall_mem_cons.mpr
        ⟨⟨s, h.1 ▸ hs, fun _ => h.2.isValue_skip⟩, ih hm⟩
  exact fun m hm => hz m (hperm.mem_iff.mpr hm)

theorem fits (h : Alike n n') (names : List String) : Fits (fun _ => Alike) names n n' := by
  cases h with
  | null | bool | number | string => exact .scalar rfl
  | array h =>
    refine .array h.length_eq fun i name x y _ hx hy => ?_
    obtain ⟨hi, rfl⟩ := List.getElem?_eq_some_iff.mp hx
    obtain ⟨hj, rfl⟩ := List.getElem?_eq_some_iff.mp hy
    exact h.get hi hj
  | object hkeys hvalues hperm =>
    have h := forall₂_alikeMember_iff.mpr ⟨hkeys, hvalues⟩
    exact .object (fun name _ => matches_under h hperm name) (passable h hperm)

theorem withoutKind (h : Alike n n') : Alike n.withoutKind n'.withoutKind := by
  cases h with
  | null | bool | number | string => constructor
  | array h =>
    cases h with
    | nil => exact .array .nil
    | cons _ h => exact .array h
  | object hkeys hvalues hperm =>
    have h := forall₂_alikeMember_iff.mpr ⟨hkeys, hvalues⟩
    refine .of_members ?_ (hperm.filter _)
    refine List.rel_filter (R := AlikeMember) (fun m z hm => ?_) h
    simp [isKindKey, hm.1]

theorem variantKind_le (h : Alike n n') (kinds : List (String × κ)) (byIndex : Bool) :
    Le (n.variantKind kinds byIndex) (n'.variantKind kinds byIndex) := by
  cases h with
  | null | bool | number | string => exact variantKind_le_of_not_container rfl _
  | array h =>
    cases h with
    | nil => exact variantKind_array_le .none
    | cons h _ => exact variantKind_array_le (.some h.sameKind)
  | object hkeys hvalues hperm =>
    obtain ⟨zs, hz, hp⟩ :=
      matches_under (forall₂_alikeMember_iff.mpr ⟨hkeys, hvalues⟩) hperm "kind"
    exact variantKind_object_le ⟨zs, hz.imp fun _ _ => sameKind, hp⟩

theorem isValue_toJson {depth : Nat} (h : Alike n n') (hn : IsValue (n.toJson depth)) :
    IsValue (n'.toJson depth) := by
  induction depth generalizing n n' with
  | zero =>
    cases h with
    | null | bool => simp [toJson]
    | number => exact isValue_toJson_number.mpr (isValue_toJson_number.mp hn)
    | string => exact isValue_toJson_string.mpr (isValue_toJson_string.mp hn)
    | array | object => simp [toJson] at hn
  | succ depth ih =>
    cases h with
    | null | bool => simp [toJson]
    | number => exact isValue_toJson_number.mpr (isValue_toJson_number.mp hn)
    | string => exact isValue_toJson_string.mpr (isValue_toJson_string.mp hn)
    | array h =>
      have hx := (isValue_toJson_array.mp hn).1
      refine isValue_toJson_array.mpr ⟨?_, _, rfl⟩
      clear hn
      -- nesting goes down by one for all items at once, so the list needs an induction of its own
      induction h with
      | nil => simp
      | cons h _ ihs =>
        rw [List.forall_mem_cons] at hx ⊢
        exact ⟨ih h hx.1, ihs hx.2⟩
    | object hkeys hvalues hperm =>
      have hx := (isValue_toJson_object.mp hn).1
      refine isValue_toJson_object.mpr ⟨?_, _, rfl⟩
      have h := forall₂_alikeMember_iff.mpr ⟨hkeys, hvalues⟩
      simp only [← hperm.mem_iff]
      clear hn hkeys hvalues hperm
      induction h with
      | nil => simp
      | cons h _ ihs =>
        rw [List.forall_mem_cons] at hx ⊢
        exact ⟨⟨h.1 ▸ hx.1.1, ih h.2 hx.1.2⟩, ihs hx.2⟩

end Alike

end Node

end EnumCover
