import EnumCover.Proofs.Json.Printing
import EnumCover.Proofs.Snapshot.Parts

namespace EnumCover

open Reading (Le IsValue)

namespace Content

/-- Whatever is read from the first node is read from the second. -/
def Keeps (depth : Nat) (c : Content) (n n' : Node) : Prop :=
  ∀ inside, Le (c.read depth inside n) (c.read depth inside n')

theorem Keeps.refl (depth : Nat) (c : Content) (n : Node) : Keeps depth c n n := fun _ => .refl _

def FieldKeeps (depth : Nat) (fields : List (String × Content)) (name : String) (n n' : Node) :
    Prop :=
  ∀ c, fields.lookup name = some c → Keeps depth c n n'

def known (c : Content) (fields : List (String × Content)) : List String :=
  if c.tagged then "kind" :: fields.map (·.1) else fields.map (·.1)

theorem KindNamed.mono {c : Content} {a : c.Result} {inside : Bool} {n n' : Node}
    (hkind : c.tagged = true → ∀ (κ : Type) (kinds : List (String × κ)) byIndex,
      Le (n.variantKind kinds byIndex) (n'.variantKind kinds byIndex))
    (h : c.KindNamed a inside n) : c.KindNamed a inside n' := by
  cases c with
  | expr | stmt | decl => exact hkind rfl _ _ _ _ h
  | _ => trivial

theorem Part.Reads.keeps {depth : Nat} {inside : Bool} {fields : List (String × Content)}
    {r r' : Record} {p : Part} (hp : fields.lookup p.name = some p.content)
    (hrel : Option.Rel (FieldKeeps depth fields p.name) (r.get? p.name) (r'.get? p.name))
    (h : p.Reads depth inside r) : p.Reads depth inside r' := by
  unfold Part.Reads at h ⊢
  revert h hrel
  generalize r.get? p.name = o
  generalize r'.get? p.name = o'
  rintro (hxy | _) h
  · exact hxy p.content hp inside _ h
  · exact h

/-- Records and variants are read alike if they name the same kind and their fields are read
alike. -/
theorem keeps_structured {depth : Nat} {c : Content} {n n' : Node}
    {fields : List (String × Content)} (hfields : c.fields? n = some fields)
    (hkind : c.tagged = true → ∀ (κ : Type) (kinds : List (String × κ)) byIndex,
      Le (n.variantKind kinds byIndex) (n'.variantKind kinds byIndex))
    (hjson : ∀ depth, IsValue (n.toJson depth) → IsValue (n'.toJson depth))
    (h : Node.Fits (FieldKeeps depth fields) (fields.map (·.1)) (c.body n) (c.body n')) :
    Keeps (depth + 1) c n n' := by
  intro inside a ha
  have hs := structured_of_fields? hfields
  have hparts : fields = (c.parts a).map fun p => (p.name, p.content) :=
    Option.some.inj (hfields.symm.trans (fields?_eq hs ha))
  have hnames : fields.map (·.1) = (c.parts a).map (·.name) := by simp [hparts]
  obtain ⟨hk, hout, r, hr, hreads⟩ := (read_structured_iff hs).mp ha
  rw [hnames] at h
  -- The first record has the fields of `a`, so the second one has them too.
  obtain ⟨r', hr', hrel⟩ := h.recordOf? hr
  refine (read_structured_iff hs).mpr ⟨hk.mono hkind, fun ho => hjson _ (hout ho), r', hr', ?_⟩
  intro p hp
  have hlookup : fields.lookup p.name = some p.content := by
    refine (Keyed.lookup_eq_some_iff_mem (nodup_fields hfields).1).mpr ?_
    rw [hparts]
    exact List.mem_map_of_mem hp
  exact (hreads p hp).keeps hlookup (hrel p.name (List.mem_map_of_mem hp))

theorem keeps_zero {c : Content} {n n' : Node} (hs : c.structured = true) : Keeps 0 c n n' := by
  intro inside
  rw [read_zero hs]
  exact Node.refuse_le n _

section Containers

open Node

theorem keeps_object {depth : Nat} {c : Content} {fields : List (String × Content)}
    {ms ms' : List (Key × Node)} {l l' k k' : Nat}
    (hfields : c.fields? (.object l ms (.closed k)) = some fields)
    (hunder : ∀ name ∈ fields.map (·.1),
      Matches (FieldKeeps depth fields name) (under name ms) (under name ms'))
    (hkind : c.tagged = true → Matches SameKind (under "kind" ms) (under "kind" ms'))
    (hpass : (∀ m ∈ ms, Passable (c.known fields) m) → ∀ m ∈ ms', Passable (c.known fields) m)
    (hjson : ∀ depth, IsValue ((Node.object l ms (.closed k)).toJson depth) →
      IsValue ((Node.object l' ms' (.closed k')).toJson depth)) :
    Keeps (depth + 1) c (.object l ms (.closed k)) (.object l' ms' (.closed k')) := by
  refine keeps_structured hfields (fun htag κ kinds byIndex => variantKind_object_le (hkind htag))
    hjson ?_
  cases htag : c.tagged with
  | false =>
    simp only [known, body, htag] at hpass ⊢
    exact .object hunder hpass
  | true =>
    simp only [known, body, htag, if_true] at hpass ⊢
    refine .object (fun name hn => ?_) fun hm =>
      passable_withoutKind.mpr (hpass (passable_withoutKind.mp hm))
    have hne : name ≠ "kind" := fun he => (nodup_fields hfields).2 htag (he ▸ hn)
    rw [under_withoutKind hne, under_withoutKind hne]
    exact hunder name hn

theorem keeps_array {depth : Nat} {c : Content} {fields : List (String × Content)}
    {xs ys : List Node} {l l' k k' : Nat}
    (hfields : c.fields? (.array l xs (.closed k)) = some fields) (hlen : xs.length = ys.length)
    (hplace : ∀ (i : Nat) name c' x y, fields[i]? = some (name, c') →
      xs[if c.tagged then i + 1 else i]? = some x → ys[if c.tagged then i + 1 else i]? = some y →
        Keeps depth c' x y)
    (hkind : c.tagged = true → Option.Rel SameKind xs.head? ys.head?)
    (hjson : ∀ depth, IsValue ((Node.array l xs (.closed k)).toJson depth) →
      IsValue ((Node.array l' ys (.closed k')).toJson depth)) :
    Keeps (depth + 1) c (.array l xs (.closed k)) (.array l' ys (.closed k')) := by
  have hfield : ∀ (i : Nat) name x y, (fields.map (·.1))[i]? = some name →
      xs[if c.tagged then i + 1 else i]? = some x → ys[if c.tagged then i + 1 else i]? = some y →
        FieldKeeps depth fields name x y := by
    intro i name x y hn hx hy c' hc'
    rw [List.getElem?_map] at hn
    obtain ⟨⟨_, c₀⟩, hf, rfl⟩ := Option.map_eq_some_iff.mp hn
    have hlookup := (Keyed.lookup_eq_some_iff_mem (nodup_fields hfields).1).mpr
      (List.mem_of_getElem? hf)
    obtain rfl := Option.some.inj (hlookup.symm.trans hc')
    exact hplace i _ _ x y hf hx hy
  refine keeps_structured hfields (fun htag κ kinds byIndex => variantKind_array_le (hkind htag))
    hjson ?_
  cases htag : c.tagged with
  | false =>
    simp only [body, htag] at hfield ⊢
    exact .array hlen hfield
  | true =>
    -- The first item is the kind, so every field stands one place later.
    simp only [body, htag, if_true] at hfield ⊢
    refine .array (by simp [hlen]) fun i name x y hn hx hy => ?_
    rw [List.getElem?_tail] at hx hy
    exact hfield i name x y hn hx hy

end Containers

theorem keeps_nullable {depth : Nat} {c : Content} {n n' : Node} (hn : ∀ l, n ≠ .null l)
    (hn' : ∀ l, n' ≠ .null l) (h : Keeps depth c n n') : Keeps depth (nullable c) n n' := by
  intro inside
  rw [read, nullable_of_ne_null hn, nullable_of_ne_null hn']
  exact (h inside).map some

theorem keeps_list_zero (c : Content) (n n' : Node) : Keeps 0 (list c) n n' :=
  fun _ => Node.refuse_le n _

theorem keeps_list {depth : Nat} {c : Content} {xs ys : List Node} {l l' k k' : Nat}
    (h : List.Forall₂ (Keeps depth c) xs ys) :
    Keeps (depth + 1) (list c) (.array l xs (.closed k)) (.array l' ys (.closed k')) := by
  intro inside
  refine Le.before (.all ?_) (by simp)
  exact List.forall₂_map_left_iff.mpr (List.forall₂_map_right_iff.mpr (h.imp fun _ _ h => h inside))

end Content

namespace Node.Alike

open Content

variable {n n' : Node}

theorem value_read_container {n : Node} (h : n.isContainer = true) (depth : Nat) (v : Value) :
    Value.read depth n ≠ .value v := by
  intro hv
  obtain ⟨j, hj, hv⟩ := Reading.andThen_eq_value_iff.mp hv
  cases n with
  | array l xs stop =>
    cases depth with
    | zero => simp [toJson] at hj
    | succ depth =>
      obtain ⟨js, -, rfl⟩ := Reading.map_eq_value_iff.mp (Reading.before_eq_value_iff.mp hj).1
      simp [Value.ofJson?] at hv
  | object l ms stop =>
    cases depth with
    | zero => simp [toJson] at hj
    | succ depth =>
      obtain ⟨js, -, rfl⟩ := Reading.map_eq_value_iff.mp (Reading.before_eq_value_iff.mp hj).1
      simp [Value.ofJson?] at hv
  | _ => cases h

theorem value_keeps (h : Alike n n') (depth : Nat) : Keeps depth value n n' := by
  intro inside v hv
  simp only [Content.read] at hv ⊢
  cases h with
  | array | object => exact absurd hv (value_read_container rfl depth v)
  | null => simp [Value.read, toJson, Reading.andThen, Value.ofJson?] at hv
  | bool => exact hv
  | number l l' m =>
    cases hm : m.toJson? with
    | none => simp [Value.read, toJson, hm, Reading.andThen] at hv
    | some j =>
      simp only [Value.read, toJson, hm, Reading.andThen] at hv ⊢
      split at hv
      · exact hv
      · cases hv
  | string l l' s =>
    cases s with
    | none => simp [Value.read, toJson, Reading.andThen] at hv
    | some s => exact hv

theorem literalKind_le (h : Alike n n') (inside : Bool) :
    Le (LiteralKind.read inside n) (LiteralKind.read inside n') := by
  intro k hk
  obtain ⟨s, hs, ⟨l, rfl⟩ | ⟨l, key, x, stop, rfl, hkey, hx⟩⟩ :=
    LiteralKind.read_eq_value_iff.mp hk
  · cases h
    exact LiteralKind.read_eq_value_iff.mpr ⟨s, hs, .inl ⟨_, rfl⟩⟩
  · cases h with
    | object hkeys hvalues hperm =>
      -- A single member has no other order.
      have hm := forall₂_alikeMember_iff.mpr ⟨hkeys, hvalues⟩
      obtain ⟨⟨key', x'⟩, zs, ⟨hk', hxx⟩, hzs, rfl⟩ := List.forall₂_cons_left_iff.mp hm
      obtain rfl := List.forall₂_nil_left_iff.mp hzs
      obtain rfl := List.singleton_perm.mp hperm
      refine LiteralKind.read_eq_value_iff.mpr
        ⟨s, hs, .inr ⟨_, key', x', _, rfl, hk' ▸ hkey, ?_⟩⟩
      rcases hx with ⟨_, rfl⟩ | ⟨hin, _, _, rfl⟩
      · cases hxx
        exact .inl ⟨_, rfl⟩
      · cases hxx with
        | object hkeys' _ hperm' =>
          obtain rfl := List.map_eq_nil_iff.mp hkeys'.symm
          obtain rfl := hperm'.nil_eq
          exact .inr ⟨hin, _, _, rfl⟩

theorem text_le (h : Alike n n') : Le n.text n'.text := by
  intro s hs
  obtain ⟨l, rfl⟩ := text_eq_value_iff.mp hs
  cases h
  rfl

theorem flag_le (h : Alike n n') : Le n.flag n'.flag := by
  intro b hb
  obtain ⟨l, rfl⟩ := flag_eq_value_iff.mp hb
  cases h
  rfl

theorem coordinate_le (h : Alike n n') : Le n.coordinate n'.coordinate := by
  intro a ha
  obtain ⟨l, m, rfl, hm⟩ := coordinate_eq_value_iff.mp ha
  cases h
  exact coordinate_eq_value_iff.mpr ⟨_, m, rfl, hm⟩

theorem ne_null (h : Alike n n') (hn : ∀ l, n ≠ .null l) : ∀ l, n' ≠ .null l := by
  cases h with
  | null l => exact absurd rfl (hn l)
  | _ => exact nofun

theorem nullable_keeps (h : Alike n n') {depth : Nat} {c : Content} (hc : Keeps depth c n n') :
    Keeps depth (Content.nullable c) n n' := by
  by_cases hn : ∃ l, n = .null l
  · obtain ⟨l, rfl⟩ := hn
    cases h
    exact fun _ => .refl _
  · have hn : ∀ l, n ≠ .null l := fun l hl => hn ⟨l, hl⟩
    exact keeps_nullable hn (h.ne_null hn) hc

theorem body (h : Alike n n') (c : Content) : Alike (c.body n) (c.body n') := by
  unfold Content.body
  split
  · exact h.withoutKind
  · exact h

theorem structured_keeps (h : Alike n n') {c : Content} (hs : c.structured = true) {depth : Nat}
    (ih : ∀ {n n'}, Alike n n' → ∀ c, Keeps depth c n n') : Keeps (depth + 1) c n n' := by
  intro inside a ha
  have hfields := fields?_eq hs ha
  refine keeps_structured hfields (fun _ _ => h.variantKind_le) (fun _ => h.isValue_toJson) ?_
    inside a ha
  exact ((h.body c).fits _).mono fun name x y hxy c _ => ih hxy c

/-- Nothing that is read depends on lines or on the order of members. -/
theorem keeps (h : Alike n n') (depth : Nat) (c : Content) : Keeps depth c n n' := by
  induction depth generalizing c n n' with
  | zero =>
    induction c with
    | text => exact fun _ => h.text_le
    | flag => exact fun _ => h.flag_le
    | coordinate => exact fun _ => h.coordinate_le
    | type => exact fun _ => h.text_le.map _
    | value => exact h.value_keeps 0
    | literalKind => exact h.literalKind_le
    | nullable c ih => exact h.nullable_keeps ih
    | list c => exact keeps_list_zero c n n'
    | _ => exact keeps_zero rfl
  | succ depth ih =>
    induction c with
    | text => exact fun _ => h.text_le
    | flag => exact fun _ => h.flag_le
    | coordinate => exact fun _ => h.coordinate_le
    | type => exact fun _ => h.text_le.map _
    | value => exact h.value_keeps _
    | literalKind => exact h.literalKind_le
    | nullable c ih => exact h.nullable_keeps ih
    | list c =>
      intro inside as has
      obtain ⟨l, xs, k, rfl, -⟩ := items_eq_value_iff.mp has
      cases h with
      | array h => exact keeps_list (h.imp fun x y hxy => ih hxy c) inside as has
    | _ => exact h.structured_keeps rfl ih

end Node.Alike

namespace Program

open Json

/-- A spelled text is read as the value it spells. -/
theorem ofSnapshot_text_eq_value_iff {s : Padded Spelling} {p : Program} :
    ofSnapshot (Spelling.text s) = .value p ↔
      Program.read Node.maxNesting s.value.node = .value p := by
  obtain ⟨n, k, hparse, hn, hn'⟩ := Spelling.parse_text s
  simp only [ofSnapshot, readText, hparse, Document.read, Reading.before_eq_value_iff]
  constructor
  · exact fun h => hn.keeps Node.maxNesting .program false p h.1
  · exact fun h => ⟨hn'.keeps Node.maxNesting .program false p h, by simp⟩

theorem ofSnapshot_compact_iff {j : Json} (h : j.IsPlain) {p : Program} :
    ofSnapshot j.compact = .value p ↔ Program.read Node.maxNesting j.node = .value p := by
  obtain ⟨s, htext, hnode⟩ := Json.exists_compact_spelling h
  rw [← htext, ofSnapshot_text_eq_value_iff, hnode]

theorem exists_spelling {t : String} {p : Program} (h : ofSnapshot t = .value p) :
    ∃ s, t = Spelling.text s := by
  have hstop := (Reading.before_eq_value_iff.mp h).2
  obtain ⟨k, hk⟩ := Node.isValue_check.mp hstop
  exact Spelling.exists_text hk

end Program

end EnumCover
