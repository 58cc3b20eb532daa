import EnumCover.Path.Components

namespace EnumCover

namespace Component

theorem lt_irrefl (a : Component) : a.lt a = false := by
  cases a with
  | name s => exact decide_eq_false (List.lt_irrefl s.toList)
  | _ => rfl

theorem lt_trans {a b c : Component} (hab : a.lt b = true) (hbc : b.lt c = true) :
    a.lt c = true := by
  cases a <;> cases b <;> cases c
  case name.name.name s t u =>
    simp only [lt, decide_eq_true_eq] at hab hbc ⊢
    exact List.lt_trans hab hbc
  all_goals simp_all [lt, rank]

theorem lt_or_eq_or_gt (a b : Component) : a.lt b = true ∨ a = b ∨ b.lt a = true := by
  cases a <;> cases b
  case name.name s t =>
    simp only [lt, decide_eq_true_eq, name.injEq]
    by_cases he : s = t
    · exact .inr (.inl he)
    have hne : s.toList ≠ t.toList := fun h => he (String.toList_injective h)
    rcases List.le_total s.toList t.toList with h | h
    · exact .inl (List.not_le.mp fun hts => hne (List.le_antisymm h hts))
    · exact .inr (.inr (List.not_le.mp fun hst => hne (List.le_antisymm hst h)))
  all_goals simp [lt, rank]

end Component

namespace Path

theorem componentsLt_cons {a b : Component} {as bs : List Component} :
    componentsLt (a :: as) (b :: bs) = true ↔
      a.lt b = true ∨ a = b ∧ componentsLt as bs = true := by
  simp [componentsLt]

theorem componentsLt_irrefl (as : List Component) : componentsLt as as = false := by
  induction as with
  | nil => rfl
  | cons a as ih => simp [componentsLt, Component.lt_irrefl, ih]

theorem componentsLt_trans {as bs cs : List Component} (hab : componentsLt as bs = true)
    (hbc : componentsLt bs cs = true) : componentsLt as cs = true := by
  induction as generalizing bs cs with
  | nil =>
    cases bs with
    | nil => cases hab
    | cons b bs =>
      cases cs with
      | nil => cases hbc
      | cons c cs => rfl
  | cons a as ih =>
    cases bs with
    | nil => cases hab
    | cons b bs =>
      cases cs with
      | nil => cases hbc
      | cons c cs =>
        rw [componentsLt_cons] at hab hbc ⊢
        rcases hab with hab | ⟨rfl, hab⟩
        · rcases hbc with hbc | ⟨rfl, -⟩
          · exact .inl (Component.lt_trans hab hbc)
          · exact .inl hab
        · rcases hbc with hbc | ⟨rfl, hbc⟩
          · exact .inl hbc
          · exact .inr ⟨rfl, ih hab hbc⟩

theorem componentsLt_or_eq_or_gt (as bs : List Component) :
    componentsLt as bs = true ∨ as = bs ∨ componentsLt bs as = true := by
  induction as generalizing bs with
  | nil =>
    cases bs with
    | nil => exact .inr (.inl rfl)
    | cons b bs => exact .inl rfl
  | cons a as ih =>
    cases bs with
    | nil => exact .inr (.inr rfl)
    | cons b bs =>
      simp only [componentsLt_cons]
      rcases a.lt_or_eq_or_gt b with h | rfl | h
      · exact .inl (.inl h)
      · rcases ih bs with h | rfl | h
        · exact .inl (.inr ⟨rfl, h⟩)
        · exact .inr (.inl rfl)
        · exact .inr (.inr (.inr ⟨rfl, h⟩))
      · exact .inr (.inr (.inl h))

theorem le_iff {a b : String} :
    le a b = true ↔ componentsLt (components a) (components b) = true ∨
      components a = components b := by
  rw [le, Bool.not_eq_true']
  constructor
  · intro h
    rcases componentsLt_or_eq_or_gt (components a) (components b) with hlt | heq | hgt
    · exact .inl hlt
    · exact .inr heq
    · rw [h] at hgt
      cases hgt
  · intro h
    rw [← Bool.not_eq_true]
    intro hgt
    have hself : componentsLt (components b) (components b) = true := by
      rcases h with hlt | heq
      · exact componentsLt_trans hgt hlt
      · rwa [heq] at hgt
    rw [componentsLt_irrefl] at hself
    cases hself

theorem le_trans (a b c : String) (hab : le a b = true) (hbc : le b c = true) :
    le a c = true := by
  rw [le_iff] at *
  rcases hab with hab | hab
  · rcases hbc with hbc | hbc
    · exact .inl (componentsLt_trans hab hbc)
    · exact .inl (hbc ▸ hab)
  · rwa [hab]

theorem le_total (a b : String) : (le a b || le b a) = true := by
  rw [Bool.or_eq_true, le_iff, le_iff]
  rcases componentsLt_or_eq_or_gt (components a) (components b) with h | h | h
  · exact .inl (.inl h)
  · exact .inl (.inr h)
  · exact .inr (.inl h)

end Path

end EnumCover
