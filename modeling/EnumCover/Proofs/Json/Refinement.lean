import EnumCover.Json.Record
import Mathlib.Data.List.Forall2

namespace EnumCover

namespace Reading

variable {α β : Type}

/-- The reading succeeds. -/
def IsValue (x : Reading α) : Prop := ∃ a, x = value a

@[simp] theorem map_eq_value_iff {f : α → β} {x : Reading α} {b : β} :
    f <$> x = value b ↔ ∃ a, x = value a ∧ f a = b := by
  cases x <;> simp [Functor.map, map]

@[simp] theorem ap_eq_value_iff {f : Reading (α → β)} {x : Reading α} {b : β} :
    f <*> x = value b ↔ ∃ g a, f = value g ∧ x = value a ∧ g a = b :=
  seq_eq_value_iff

@[simp] theorem before_eq_value_iff {x : Reading α} {y : Reading β} {a : α} :
    x <* y = value a ↔ x = value a ∧ IsValue y := by
  cases x <;> cases y <;> simp [SeqLeft.seqLeft, map, seq, IsValue]

@[simp] theorem andThen_eq_value_iff {x : Reading α} {f : α → Reading β} {b : β} :
    x.andThen f = value b ↔ ∃ a, x = value a ∧ f a = value b := by
  cases x <;> simp [andThen]

@[simp] theorem isValue_value (a : α) : IsValue (value a) := ⟨a, rfl⟩

@[simp] theorem not_isValue_fault (l : Nat) : ¬ IsValue (fault l : Reading α) := by simp [IsValue]

@[simp] theorem isValue_map {f : α → β} {x : Reading α} : IsValue (f <$> x) ↔ IsValue x := by
  simp [IsValue]

@[simp] theorem isValue_ap {f : Reading (α → β)} {x : Reading α} :
    IsValue (f <*> x) ↔ IsValue f ∧ IsValue x := by
  cases f <;> cases x <;> simp [Seq.seq, seq]

@[simp] theorem isValue_before {x : Reading α} {y : Reading β} :
    IsValue (x <* y) ↔ IsValue x ∧ IsValue y := by
  cases x <;> cases y <;> simp [SeqLeft.seqLeft, map, seq]

/-- What the first reading gives, the second gives too. -/
def Le (x y : Reading α) : Prop := ∀ a, x = value a → y = value a

theorem Le.refl (x : Reading α) : Le x x := fun _ h => h

@[simp] theorem Le.of_fault (l : Nat) (y : Reading α) : Le (fault l) y := fun _ h => nomatch h

theorem toOption_eq_of_le {x y : Reading α} (h : Le x y) (h' : Le y x) :
    x.toOption = y.toOption := by
  cases x with
  | value a => rw [h a rfl]
  | fault l =>
    cases y with
    | value b => exact nomatch h' b rfl
    | fault m => rfl

theorem Le.map {x y : Reading α} (f : α → β) (h : Le x y) : Le (f <$> x) (f <$> y) := by
  intro b hb
  obtain ⟨a, ha, rfl⟩ := map_eq_value_iff.mp hb
  exact map_eq_value_iff.mpr ⟨a, h a ha, rfl⟩

theorem Le.ap {f g : Reading (α → β)} {x y : Reading α} (hf : Le f g) (hx : Le x y) :
    Le (f <*> x) (g <*> y) := by
  intro b hb
  obtain ⟨k, a, hk, ha, rfl⟩ := ap_eq_value_iff.mp hb
  exact ap_eq_value_iff.mpr ⟨k, a, hf k hk, hx a ha, rfl⟩

theorem Le.before {x y : Reading α} {z w : Reading β} (h : Le x y) (h' : IsValue z → IsValue w) :
    Le (x <* z) (y <* w) := by
  intro a ha
  obtain ⟨hx, hz⟩ := before_eq_value_iff.mp ha
  exact before_eq_value_iff.mpr ⟨h a hx, h' hz⟩

theorem Le.all {xs ys : List (Reading α)} (h : List.Forall₂ Le xs ys) : Le (all xs) (all ys) := by
  induction h with
  | nil => exact .refl _
  | cons h _ ih => exact .ap (.map _ h) ih

end Reading

open Reading (Le IsValue)

namespace Node

variable {α κ : Type}

@[simp] theorem refuse_ne_value (n : Node) (a : α) : n.refuse ≠ .value a := by
  cases n <;> simp [refuse]

@[simp] theorem not_isValue_refuse (n : Node) : ¬ IsValue (n.refuse : Reading α) := by
  simp [IsValue]

theorem refuse_le (n : Node) (y : Reading α) : Le n.refuse y :=
  fun _ h => absurd h (refuse_ne_value _ _)

@[simp] theorem isValue_check {stop : Stop} : IsValue stop.check ↔ ∃ l, stop = .closed l := by
  cases stop <;> simp [Stop.check]

theorem isValue_itemsToJson {depth : Nat} {xs : List Node} :
    IsValue (itemsToJson depth xs) ↔ ∀ x ∈ xs, IsValue (x.toJson depth) := by
  induction xs with
  | nil => simp [itemsToJson]
  | cons x xs ih => simp [itemsToJson, ih]

theorem isValue_membersToJson {depth : Nat} {ms : List (Key × Node)} :
    IsValue (membersToJson depth ms) ↔
      ∀ m ∈ ms, m.1.text.isSome ∧ IsValue (m.2.toJson depth) := by
  induction ms with
  | nil => simp [membersToJson]
  | cons m ms ih =>
    obtain ⟨k, x⟩ := m
    rw [membersToJson, Reading.isValue_ap, Reading.isValue_ap, Reading.isValue_map, ih,
      List.forall_mem_cons]
    cases k.text <;> simp

theorem isValue_toJson_number {depth l : Nat} {n : Numeral} :
    IsValue ((number l n).toJson depth) ↔ n.toJson?.isSome := by
  cases h : n.toJson? <;> simp [toJson, h]

theorem isValue_toJson_string {depth l : Nat} {s : Option String} :
    IsValue ((string l s).toJson depth) ↔ s.isSome := by
  cases s <;> simp [toJson]

theorem isValue_toJson_array {depth l : Nat} {xs : List Node} {stop : Stop} :
    IsValue ((array l xs stop).toJson (depth + 1)) ↔
      (∀ x ∈ xs, IsValue (x.toJson depth)) ∧ ∃ k, stop = .closed k := by
  simp [toJson, isValue_itemsToJson]

theorem isValue_toJson_object {depth l : Nat} {ms : List (Key × Node)} {stop : Stop} :
    IsValue ((object l ms stop).toJson (depth + 1)) ↔
      (∀ m ∈ ms, m.1.text.isSome ∧ IsValue (m.2.toJson depth)) ∧ ∃ k, stop = .closed k := by
  simp [toJson, isValue_membersToJson]

def isContainer : Node → Bool
  | array _ _ _ | object _ _ _ => true
  | _ => false

theorem variantKind_le_of_not_container {kinds : List (String × κ)} {byIndex : Bool} {n : Node}
    (h : n.isContainer = false) (y : Reading κ) : Le (n.variantKind kinds byIndex) y := by
  intro k hk
  cases n with
  | array | object => cases h
  | _ => simp [variantKind] at hk

/-- The nodes that stand under a key. -/
def under (name : String) (ms : List (Key × Node)) : List Node :=
  (ms.filter (·.1.text == some name)).map (·.2)

@[simp] theorem under_nil (name : String) : under name [] = [] := rfl

theorem under_cons (name : String) (m : Key × Node) (ms : List (Key × Node)) :
    under name (m :: ms) =
      if m.1.text = some name then m.2 :: under name ms else under name ms := by
  by_cases h : m.1.text = some name <;> simp [under, h]

theorem under_append (name : String) (ms ms' : List (Key × Node)) :
    under name (ms ++ ms') = under name ms ++ under name ms' := by
  simp [under]

/-- The member has a text for its key, and its value is JSON if nobody knows the key. -/
def Passable (names : List String) (m : Key × Node) : Prop :=
  ∃ s, m.1.text = some s ∧ (s ∉ names → IsValue m.2.skip)

theorem length_under_cons_le_iff {names seen : List String} {s : String} (u : String → Nat) :
    (∀ name ∈ names, u name + (if s = name then 1 else 0) ≤ if name ∈ seen then 0 else 1) ↔
      (s ∈ names → s ∉ seen) ∧ ∀ name ∈ names, u name ≤ if name ∈ s :: seen then 0 else 1 := by
  constructor
  · intro h
    refine ⟨fun hs hseen => ?_, fun name hn => ?_⟩
    · simpa [hseen] using h s hs
    · have := h name hn
      by_cases hs : s = name
      · subst hs
        simp only [if_true] at this
        split at this <;> simp_all
      · simpa [hs, Ne.symm hs] using this
  · rintro ⟨hs, h⟩ name hn
    have := h name hn
    by_cases hs' : s = name
    · subst hs'
      simpa [hs hn] using this
    · simpa [hs', Ne.symm hs'] using this

/-- Of a known key that was seen before nothing more may come, and of any other known key one
member. -/
theorem isValue_checkMembers {names seen : List String} {ms : List (Key × Node)} :
    IsValue (checkMembers names seen ms) ↔
      (∀ m ∈ ms, Passable names m) ∧
        ∀ name ∈ names, (under name ms).length ≤ if name ∈ seen then 0 else 1 := by
  induction ms generalizing seen with
  | nil => simp [checkMembers]
  | cons m ms ih =>
    obtain ⟨k, x⟩ := m
    cases hk : k.text with
    | none => simp [checkMembers, hk, Passable]
    | some s =>
      have hp : Passable names (k, x) ↔ (s ∉ names → IsValue x.skip) := by simp [Passable, hk]
      have hu : ∀ name, (under name ((k, x) :: ms)).length =
          (under name ms).length + if s = name then 1 else 0 := by
        intro name
        rw [under_cons, hk]
        by_cases h : s = name <;> simp [h]
      have hhere : IsValue (if s ∈ names then if s ∈ seen then .fault k.line else .value ()
          else x.skip) ↔ (s ∉ names → IsValue x.skip) ∧ (s ∈ names → s ∉ seen) := by
        by_cases hs : s ∈ names <;> by_cases hseen : s ∈ seen <;> simp [hs, hseen]
      -- What holds of the members still to come, once this key has been seen, is the induction
      -- hypothesis.
      simp only [hu, length_under_cons_le_iff]
      rw [List.forall_mem_cons, hp]
      simp only [checkMembers, hk, Reading.isValue_before, hhere, ih]
      tauto

theorem lookup_knownFields {names : List String} {name : String} (h : name ∈ names)
    (ms : List (Key × Node)) : (knownFields names ms).lookup name = (under name ms).head? := by
  induction ms with
  | nil => rfl
  | cons m ms ih =>
    obtain ⟨k, x⟩ := m
    rw [under_cons]
    cases hk : k.text with
    | none => simpa [knownFields, hk] using ih
    | some s =>
      by_cases hs : s = name
      · subst hs
        simp [knownFields, hk, h]
      · have hne : (name == s) = false := by simpa using Ne.symm hs
        by_cases hn : s ∈ names
        · simpa [knownFields, hk, hs, hn, List.lookup_cons, hne] using ih
        · simpa [knownFields, hk, hs, hn] using ih

theorem under_withoutKind {name : String} (h : name ≠ "kind") (ms : List (Key × Node)) :
    under name (ms.filter (!isKindKey ·)) = under name ms := by
  simp only [under, List.filter_filter]
  congr 1
  refine List.filter_congr fun m _ => ?_
  by_cases hm : m.1.text = some name
  · simp [isKindKey, hm, h]
  · simp [hm]

theorem passable_withoutKind {names : List String} {ms : List (Key × Node)} :
    (∀ m ∈ ms.filter (!isKindKey ·), Passable names m) ↔
      ∀ m ∈ ms, Passable ("kind" :: names) m := by
  simp only [List.mem_filter, and_imp]
  refine forall_congr' fun m => forall_congr' fun _ => ?_
  by_cases hm : m.1.text = some "kind"
  · simp [Passable, isKindKey, hm]
  · have hne : ∀ s, m.1.text = some s → s ≠ "kind" := fun s hs he => hm (he ▸ hs)
    simp only [isKindKey, Passable, beq_eq_false_iff_ne.mpr hm, Bool.not_false, true_imp_iff,
      List.mem_cons, not_or]
    constructor
    · rintro ⟨s, hs, hskip⟩
      exact ⟨s, hs, fun h => hskip h.2⟩
    · rintro ⟨s, hs, hskip⟩
      exact ⟨s, hs, fun h => hskip ⟨hne s hs, h⟩⟩

/-- The same nodes up to a relation and up to their order. -/
def Matches (R : Node → Node → Prop) (xs ys : List Node) : Prop :=
  ∃ zs, List.Forall₂ R xs zs ∧ zs.Perm ys

theorem Matches.length_eq {R : Node → Node → Prop} {xs ys : List Node} (h : Matches R xs ys) :
    xs.length = ys.length := by
  obtain ⟨zs, hz, hp⟩ := h
  rw [hz.length_eq, hp.length_eq]

theorem Matches.head? {R : Node → Node → Prop} {xs ys : List Node} (h : Matches R xs ys)
    (hlen : xs.length ≤ 1) : Option.Rel R xs.head? ys.head? := by
  obtain ⟨zs, hz, hp⟩ := h
  cases hz with
  | nil =>
    obtain rfl := hp.nil_eq
    exact .none
  | cons hx hr =>
    cases hr with
    | nil =>
      obtain rfl := List.perm_singleton.mp hp.symm
      exact .some hx
    | cons => simp at hlen

theorem Matches.of_forall₂ {R : Node → Node → Prop} {xs ys : List Node}
    (h : List.Forall₂ R xs ys) : Matches R xs ys := ⟨ys, h, .refl _⟩

theorem lookup_zip {R : String → Node → Node → Prop} {names : List String} {xs ys : List Node}
    (hlen : xs.length = ys.length)
    (h : ∀ (i : Nat) name x y,
      names[i]? = some name → xs[i]? = some x → ys[i]? = some y → R name x y) (name : String) :
    Option.Rel (R name) ((names.zip xs).lookup name) ((names.zip ys).lookup name) := by
  induction names generalizing xs ys with
  | nil => exact .none
  | cons s names ih =>
    match xs, ys with
    | [], [] => exact .none
    | x :: xs, y :: ys =>
      simp only [List.zip_cons_cons, List.lookup_cons]
      by_cases hs : name = s
      · subst hs
        simpa using Option.Rel.some (h 0 name x y rfl rfl rfl)
      · simp only [beq_eq_false_iff_ne.mpr hs]
        exact ih (by simpa using hlen) fun i => h (i + 1)

theorem isValue_checkExtra {names : List String} {xs : List Node} :
    IsValue (checkExtra names xs) ↔ xs.length ≤ names.length := by
  unfold checkExtra
  split <;> rename_i h
  · simpa using h
  · have : (xs.drop names.length).length ≠ 0 := by simp [h]
    simp only [List.length_drop] at this
    simp
    omega

/-- The record of a node with the given fields, if it is one. -/
def recordOf? (names : List String) : Node → Option Record
  | array _ items (.closed l) =>
    if items.length ≤ names.length then some ⟨names.zip items, l⟩ else none
  | object _ members (.closed l) =>
    if (checkMembers names [] members).toOption.isSome then some ⟨knownFields names members, l⟩
    else none
  | _ => none

theorem recordOf?_array {names : List String} {l k : Nat} {xs : List Node} {r : Record} :
    (array l xs (.closed k)).recordOf? names = some r ↔
      xs.length ≤ names.length ∧ ⟨names.zip xs, k⟩ = r := by
  by_cases h : xs.length ≤ names.length <;> simp [recordOf?, h]

theorem recordOf?_object {names : List String} {l k : Nat} {ms : List (Key × Node)} {r : Record} :
    (object l ms (.closed k)).recordOf? names = some r ↔
      IsValue (checkMembers names [] ms) ∧ ⟨knownFields names ms, k⟩ = r := by
  cases h : checkMembers names [] ms <;> simp [recordOf?, h, Reading.toOption]

theorem asRecord_eq_value_iff {names : List String} {f : Record → Reading α} {n : Node}
    {a : α} : n.asRecord names f = .value a ↔ ∃ r, n.recordOf? names = some r ∧ f r = .value a := by
  cases n with
  | array l items stop =>
    cases stop with
    | closed k =>
      simp [asRecord, isValue_checkExtra, recordOf?_array, Stop.line, and_comm]
    | cut c => simp [asRecord, recordOf?, Stop.check]
  | object l members stop =>
    cases stop with
    | closed k => simp [asRecord, recordOf?_object, Stop.line, and_comm]
    | cut c => simp [asRecord, recordOf?, Stop.check]
  | _ => simp [asRecord, recordOf?]

theorem asRecord_eq_value_iff_of_body {names : List String} {f : Record → Reading α}
    {n : Node} {a : α} {P : Record → Prop} (hbody : ∀ r, f r = .value a ↔ P r) :
    n.asRecord names f = .value a ↔ ∃ r, n.recordOf? names = some r ∧ P r := by
  simp only [asRecord_eq_value_iff, hbody]

theorem asVariant_eq_value_iff {depth : Nat} {inside : Bool}
    {kinds : List (String × κ)} {names : κ → List String} {f : κ → Record → Reading α} {n : Node}
    {a : α} : n.asVariant depth inside kinds names f = .value a ↔
      ∃ k, n.variantKind kinds inside = .value k ∧
        (inside = false → IsValue (n.toJson depth)) ∧
          ∃ r, n.withoutKind.recordOf? (names k) = some r ∧ f k r = .value a := by
  cases inside <;> simp [asVariant, asRecord_eq_value_iff, and_assoc]

theorem asVariant_eq_value_iff_of_body {depth : Nat} {inside : Bool}
    {kinds : List (String × κ)} {names : κ → List String} {f : κ → Record → Reading α} {n : Node}
    {a : α} {kind : κ} {ns : List String} {P : Record → Prop}
    (hbody : ∀ k r, f k r = .value a ↔ kind = k ∧ P r) (hnames : names kind = ns) :
    n.asVariant depth inside kinds names f = .value a ↔
      n.variantKind kinds inside = .value kind ∧
        (inside = false → IsValue (n.toJson depth)) ∧
          ∃ r, n.withoutKind.recordOf? ns = some r ∧ P r := by
  rw [asVariant_eq_value_iff, ← hnames]
  constructor
  · rintro ⟨k, hk, hjson, r, hr, ha⟩
    obtain ⟨rfl, hP⟩ := (hbody k r).mp ha
    exact ⟨hk, hjson, r, hr, hP⟩
  · rintro ⟨hk, hjson, r, hr, hP⟩
    exact ⟨kind, hk, hjson, r, hr, (hbody kind r).mpr ⟨rfl, hP⟩⟩

/-- Two nodes that hold related parts when they are read as a record: arrays place by place, objects
key by key. A node that is no record at all may be followed by anything. -/
inductive Fits (R : String → Node → Node → Prop) (names : List String) : Node → Node → Prop
  | scalar {n n' : Node} (h : n.isContainer = false) : Fits R names n n'
  | array {l l' k k' : Nat} {xs ys : List Node} (hlen : xs.length = ys.length)
    (h : ∀ (i : Nat) name x y,
      names[i]? = some name → xs[i]? = some x → ys[i]? = some y → R name x y) :
    Fits R names (array l xs (.closed k)) (array l' ys (.closed k'))
  | object {l l' k k' : Nat} {ms ms' : List (Key × Node)}
    (hunder : ∀ name ∈ names, Matches (R name) (under name ms) (under name ms'))
    (hpass : (∀ m ∈ ms, Passable names m) → ∀ m ∈ ms', Passable names m) :
    Fits R names (object l ms (.closed k)) (object l' ms' (.closed k'))

theorem Fits.mono {R R' : String → Node → Node → Prop} {names : List String} {n n' : Node}
    (h : Fits R names n n') (hR : ∀ name x y, R name x y → R' name x y) : Fits R' names n n' := by
  cases h with
  | scalar h => exact .scalar h
  | array hlen h => exact .array hlen fun i name x y hn hx hy => hR name x y (h i name x y hn hx hy)
  | object hunder hpass =>
    refine .object (fun name hn => ?_) hpass
    obtain ⟨zs, hz, hp⟩ := hunder name hn
    exact ⟨zs, hz.imp (hR name), hp⟩

/-- Nodes that fit give records that agree field by field. -/
theorem Fits.recordOf? {R : String → Node → Node → Prop} {names : List String} {n n' : Node}
    (h : Fits R names n n') {r : Record} (hr : n.recordOf? names = some r) :
    ∃ r', n'.recordOf? names = some r' ∧
      ∀ name ∈ names, Option.Rel (R name) (r.get? name) (r'.get? name) := by
  cases h with
  | scalar h =>
    cases n with
    | array | object => cases h
    | _ => cases hr
  | array hlen h =>
    obtain ⟨hle, rfl⟩ := recordOf?_array.mp hr
    exact ⟨_, recordOf?_array.mpr ⟨hlen ▸ hle, rfl⟩, fun name _ => lookup_zip hlen h name⟩
  | object hunder hpass =>
    obtain ⟨hcheck, rfl⟩ := recordOf?_object.mp hr
    obtain ⟨hm, hlen⟩ := isValue_checkMembers.mp hcheck
    simp only [List.not_mem_nil, if_false] at hlen
    refine ⟨_, recordOf?_object.mpr ⟨isValue_checkMembers.mpr ⟨hpass hm, fun name hn => ?_⟩, rfl⟩,
      fun name hn => ?_⟩
    · rw [← (hunder name hn).length_eq]
      simpa using hlen name hn
    · simp only [Record.get?, lookup_knownFields hn]
      exact (hunder name hn).head? (hlen name hn)

theorem variantKind_object {kinds : List (String × κ)} {byIndex : Bool} {l : Nat}
    {ms : List (Key × Node)} {stop : Stop} {k : κ} :
    (object l ms stop).variantKind kinds byIndex = .value k ↔
      ∃ x, under "kind" ms = [x] ∧ x.kind? kinds byIndex = some k := by
  have hu : under "kind" ms = (ms.filter isKindKey).map (·.2) := rfl
  simp only [variantKind, hu]
  rcases ms.filter isKindKey with _ | ⟨⟨key, x⟩, _ | ⟨m, rest⟩⟩
  · simp
  · cases hx : x.kind? kinds byIndex <;> simp [hx]
  · simp

theorem variantKind_array {kinds : List (String × κ)} {byIndex : Bool} {l : Nat}
    {xs : List Node} {stop : Stop} {k : κ} :
    (array l xs stop).variantKind kinds byIndex = .value k ↔
      ∃ x, xs.head? = some x ∧ x.kind? kinds byIndex = some k := by
  cases xs with
  | nil => simp [variantKind]
  | cons x xs => cases hx : x.kind? kinds byIndex <;> simp [variantKind, hx]

def SameKind (x y : Node) : Prop :=
  ∀ (κ : Type) (kinds : List (String × κ)) (byIndex : Bool),
    y.kind? kinds byIndex = x.kind? kinds byIndex

theorem variantKind_object_le {kinds : List (String × κ)} {byIndex : Bool} {l l' : Nat}
    {ms ms' : List (Key × Node)} {stop stop' : Stop}
    (h : Matches SameKind (under "kind" ms) (under "kind" ms')) :
    Le ((object l ms stop).variantKind kinds byIndex)
      ((object l' ms' stop').variantKind kinds byIndex) := by
  intro k hk
  obtain ⟨x, hx, hk⟩ := variantKind_object.mp hk
  have hlen := h.length_eq
  have hrel := h.head? (by simp [hx])
  rw [hx] at hlen hrel
  obtain ⟨y, hy⟩ := List.length_eq_one_iff.mp hlen.symm
  rw [hy] at hrel
  cases hrel with
  | some hxy => exact variantKind_object.mpr ⟨y, hy, hxy κ kinds byIndex ▸ hk⟩

theorem variantKind_array_le {kinds : List (String × κ)} {byIndex : Bool} {l l' : Nat}
    {xs ys : List Node} {stop stop' : Stop} (h : Option.Rel SameKind xs.head? ys.head?) :
    Le ((array l xs stop).variantKind kinds byIndex)
      ((array l' ys stop').variantKind kinds byIndex) := by
  intro k hk
  obtain ⟨x, hx, hk⟩ := variantKind_array.mp hk
  rw [hx] at h
  cases hy : ys.head? with
  | none => rw [hy] at h; cases h
  | some y =>
    rw [hy] at h
    cases h with
    | some hxy => exact variantKind_array.mpr ⟨y, hy, hxy κ kinds byIndex ▸ hk⟩

end Node

end EnumCover
