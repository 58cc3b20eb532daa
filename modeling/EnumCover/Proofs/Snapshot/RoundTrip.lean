import EnumCover.Proofs.Snapshot.Leaves
import EnumCover.Proofs.Snapshot.Preservation

namespace EnumCover

open Reading (IsValue)

theorem LiteralKind.ofText?_text (k : LiteralKind) : LiteralKind.ofText? k.text = some k := by
  cases k <;> decide

theorem Reading.all_map_value {α β : Type} {f : α → Reading β} {g : β → α} {bs : List β}
    (h : ∀ b ∈ bs, f (g b) = value b) : all ((bs.map g).map f) = value bs := by
  induction bs with
  | nil => rfl
  | cons b bs ih =>
    obtain ⟨hb, hbs⟩ := List.forall_mem_cons.mp h
    simp only [List.map_cons, all, hb, ih hbs, map_value, seq_value]

theorem Value.read_toJson {v : Value} (h : v.IsPlain) (depth : Nat) :
    v.toJson.IsPlain ∧ Value.read depth v.toJson.node = .value v := by
  cases v with
  | bool b => exact ⟨trivial, rfl⟩
  | str s => exact ⟨trivial, rfl⟩
  | int n =>
    have hn : Value.toJson (.int n) = .int n := if_pos h
    rw [hn]
    refine ⟨h, ?_⟩
    simp [Value.read, Json.node, Node.toJson, Json.integerSpelling_toJson? h, Reading.andThen,
      ofJson?]
  | float x => exact h.elim

namespace Content

/-- No `null` could stand for two things. -/
def distinct : Content → Bool
  | nullable (nullable _) => false
  | nullable c | list c => c.distinct
  | _ => true

theorem distinct_parts {c : Content} {a : c.Result} {p : Part} (hp : p ∈ c.parts a) :
    p.content.distinct = true := by
  have : ∀ p ∈ c.parts a, p.content.distinct = true := by
    cases c with
    | expr => cases a <;> simp [parts, exprParts, distinct]
    | stmt => rcases a with ⟨⟨⟩⟩ | _ | _ | _ <;> simp [parts, stmtParts, distinct]
    | decl => cases a <;> simp [parts, declParts, distinct]
    | _ => simp [parts, distinct]
  exact this p hp

theorem nodup_names (c : Content) (a : c.Result) :
    ("kind" :: (c.parts a).map (·.name)).Nodup := by
  cases c with
  | expr => cases a <;> simp [parts, exprParts]
  | stmt => rcases a with ⟨⟨⟩⟩ | _ | _ | _ <;> simp [parts, stmtParts]
  | decl => cases a <;> simp [parts, declParts]
  | _ => simp [parts]

end Content

namespace Node

def named (fields : List (String × Node)) : List (Key × Node) :=
  fields.map fun f => (⟨some f.1, 0⟩, f.2)

theorem length_under_named (name : String) (fields : List (String × Node)) :
    (under name (named fields)).length = (fields.map (·.1)).count name := by
  induction fields with
  | nil => rfl
  | cons f fields ih =>
    simp only [named, List.map_cons, under_cons] at ih ⊢
    by_cases h : f.1 = name <;> simp [h, ih]

theorem knownFields_named {names : List String} {fields : List (String × Node)}
    (h : ∀ f ∈ fields, f.1 ∈ names) : knownFields names (named fields) = fields := by
  induction fields with
  | nil => rfl
  | cons f fields ih =>
    obtain ⟨hf, hfields⟩ := List.forall_mem_cons.mp h
    simpa [knownFields, named, hf] using ih hfields

theorem recordOf?_named {fields : List (String × Node)} (h : (fields.map (·.1)).Nodup) :
    (object 0 (named fields) (.closed 0)).recordOf? (fields.map (·.1)) = some ⟨fields, 0⟩ := by
  have hknown : ∀ f ∈ fields, f.1 ∈ fields.map (·.1) := fun f hf => List.mem_map_of_mem hf
  obtain ⟨u, hu⟩ : IsValue (checkMembers (fields.map (·.1)) [] (named fields)) := by
    refine isValue_checkMembers.mpr ⟨List.forall_mem_map.mpr fun f hf => ?_, fun name _ => ?_⟩
    · exact ⟨f.1, rfl, fun hn => absurd (hknown f hf) hn⟩
    · rw [length_under_named]
      simpa using List.nodup_iff_count.mp h name
  simp [recordOf?, hu, Reading.toOption, knownFields_named hknown]

theorem withoutKind_named {fields : List (String × Node)} {kind : Node}
    (h : "kind" ∉ fields.map (·.1)) :
    (object 0 (named (("kind", kind) :: fields)) (.closed 0)).withoutKind =
      object 0 (named fields) (.closed 0) := by
  have hkeep : (named fields).filter (!isKindKey ·) = named fields := by
    refine List.filter_eq_self.mpr (List.forall_mem_map.mpr fun f hf => ?_)
    have : f.1 ≠ "kind" := fun he => h (he ▸ List.mem_map_of_mem hf)
    simpa [isKindKey] using this
  have hcons : named (("kind", kind) :: fields) = (⟨some "kind", 0⟩, kind) :: named fields := rfl
  rw [withoutKind, hcons, List.filter_cons_of_neg (by simp [isKindKey]), hkeep]

theorem variantKind_named {κ : Type} {kinds : List (String × κ)} {name : String} {k : κ}
    {fields : List (String × Node)} (hk : kinds.lookup name = some k)
    (h : "kind" ∉ fields.map (·.1)) (byIndex : Bool) :
    (object 0 (named (("kind", string 0 (some name)) :: fields)) (.closed 0)).variantKind kinds
      byIndex = .value k := by
  refine variantKind_object.mpr ⟨string 0 (some name), ?_, hk⟩
  have hnone : under "kind" (named fields) = [] := by
    rw [← List.length_eq_zero_iff, length_under_named]
    exact List.count_eq_zero.mpr h
  have hcons : named (("kind", string 0 (some name)) :: fields) =
    (⟨some "kind", 0⟩, string 0 (some name)) :: named fields := rfl
  rw [hcons, under_cons, if_pos rfl, hnone]

end Node

namespace Content

/-- What is written is read back, if nothing in it is beyond writing. -/
def ReadsBack (depth : Nat) (c : Content) : Prop :=
  ∀ a : c.Result, (∀ l, c.Holds a l → l.Writable) → (c.toJson a).nesting ≤ depth →
    (c.toJson a).IsPlain ∧ ∀ inside, c.read depth inside (c.toJson a).node = .value a

theorem readsBack_coordinate (depth : Nat) : ReadsBack depth coordinate := by
  intro (n : Nat) hw _
  have hn : n < twoPow 32 := hw _ (.leaf rfl)
  have hword : Json.IsWord n := by
    have : twoPow 32 < twoPow 64 := by decide
    exact ⟨by omega, by exact_mod_cast hn.trans this⟩
  refine ⟨hword, fun inside => Node.coordinate_eq_value_iff.mpr ?_⟩
  refine ⟨0, (Json.integerSpelling n).numeral, rfl, ?_⟩
  simp [Json.integerSpelling, Json.NumeralSpelling.numeral, Json.digits, hn]

theorem readsBack_type (depth : Nat) : ReadsBack depth type := by
  intro t hw _
  have ht : TypeRef.ofString (TypeRef.text t) = t := hw _ (.leaf rfl)
  exact ⟨trivial, fun _ => Reading.map_eq_value_iff.mpr ⟨_, rfl, ht⟩⟩

theorem readsBack_value (depth : Nat) : ReadsBack depth value := by
  intro v hw _
  obtain ⟨hplain, hread⟩ := Value.read_toJson (hw _ (.leaf rfl)) depth
  exact ⟨hplain, fun _ => hread⟩

theorem readsBack_literalKind (depth : Nat) : ReadsBack depth literalKind := by
  intro k _ _
  refine ⟨trivial, fun inside => LiteralKind.read_eq_value_iff.mpr ?_⟩
  exact ⟨_, LiteralKind.ofText?_text k, .inl ⟨0, rfl⟩⟩

theorem distinct_of_nullable {c : Content} (h : (nullable c).distinct = true) :
    c.distinct = true := by
  cases c with
  | nullable => cases h
  | _ => exact h

theorem read_null_ne_value {c : Content} (hc : ∀ c', c ≠ nullable c') (depth : Nat) (inside : Bool)
    (l : Nat) (a : c.Result) : c.read depth inside (.null l) ≠ .value a := by
  intro h
  cases c with
  | nullable c => exact hc c rfl
  | text | flag | coordinate => cases h
  | type | value | literalKind => cases h
  | list => cases depth <;> cases h
  | expr | stmt | decl => cases depth <;> cases inside <;> cases h
  | _ => cases depth <;> cases h

theorem readsBack_nullable {depth : Nat} {c : Content} (hc : (nullable c).distinct = true)
    (h : ReadsBack depth c) : ReadsBack depth (nullable c) := by
  intro a hw hnest
  cases a with
  | none => exact ⟨trivial, fun _ => rfl⟩
  | some a =>
    obtain ⟨hplain, hread⟩ := h a (fun l hl => hw l (.some hl)) hnest
    refine ⟨hplain, fun inside => ?_⟩
    have hc : ∀ c', c ≠ nullable c' := by
      rintro c' rfl
      cases hc
    -- What is there is not written as `null`, since it could not be read from that.
    have hnull : ∀ l, (c.toJson a).node ≠ .null l := fun l hl =>
      read_null_ne_value hc depth inside l a (hl ▸ hread inside)
    rw [read]
    exact (nullable_of_ne_null hnull).trans (Reading.map_eq_value_iff.mpr ⟨a, hread inside, rfl⟩)

theorem readsBack_list {depth : Nat} {c : Content} (h : ∀ d, d + 1 = depth → ReadsBack d c) :
    ReadsBack depth (list c) := by
  intro (as : List c.Result) hw hnest
  cases depth with
  | zero => simp [toJson, Json.nesting] at hnest
  | succ depth =>
    have hitem : ∀ a ∈ as, (c.toJson a).IsPlain ∧
        ∀ inside, c.read depth inside (c.toJson a).node = .value a := by
      intro a ha
      refine h depth rfl a (fun l hl => hw l (.item ha hl)) ?_
      exact Json.itemsNesting_le_iff.mp (Nat.le_of_succ_le_succ hnest) _ (List.mem_map_of_mem ha)
    constructor
    · exact Json.arePlain_iff.mpr (List.forall_mem_map.mpr fun a ha => (hitem a ha).1)
    · intro inside
      refine Node.items_eq_value_iff.mpr ⟨0, _, 0, rfl, ?_⟩
      rw [Json.itemNodes_eq, List.map_map]
      exact Reading.all_map_value fun a ha => (hitem a ha).2 inside

def writtenFields (c : Content) (a : c.Result) : List (String × Node) :=
  (c.parts a).map fun p => (p.name, (p.content.toJson p.value).node)

theorem writtenFields_names (c : Content) (a : c.Result) :
    (c.writtenFields a).map (·.1) = (c.parts a).map (·.name) := by
  simp [writtenFields]

theorem nodup_writtenFields (c : Content) (a : c.Result) :
    ((c.writtenFields a).map (·.1)).Nodup := by
  rw [writtenFields_names]
  exact (List.nodup_cons.mp (nodup_names c a)).2

theorem reads_writtenFields {c : Content} {a : c.Result} {depth : Nat} {inside : Bool}
    (h : ∀ p ∈ c.parts a, p.content.read depth inside (p.content.toJson p.value).node =
      .value p.value) {p : Part} (hp : p ∈ c.parts a) :
    p.Reads depth inside ⟨c.writtenFields a, 0⟩ := by
  have hget : Record.get? ⟨c.writtenFields a, 0⟩ p.name =
      some (p.content.toJson p.value).node :=
    (Keyed.lookup_eq_some_iff_mem (nodup_writtenFields c a)).mpr (List.mem_map_of_mem hp)
  rw [Part.Reads, hget]
  exact h p hp

theorem recordOf?_writtenFields (c : Content) (a : c.Result) :
    (Node.object 0 (Node.named (c.writtenFields a)) (.closed 0)).recordOf?
      ((c.parts a).map (·.name)) = some ⟨c.writtenFields a, 0⟩ := by
  rw [← writtenFields_names]
  exact Node.recordOf?_named (nodup_writtenFields c a)

theorem kind_notMem_writtenFields (c : Content) (a : c.Result) :
    "kind" ∉ (c.writtenFields a).map (·.1) := by
  rw [writtenFields_names]
  exact (List.nodup_cons.mp (nodup_names c a)).1

theorem node_toJson {c : Content} (hs : c.structured = true) (a : c.Result) :
    (c.toJson a).node =
      .object 0 (Json.memberNodes (c.kindMember a) ++ Node.named (c.writtenFields a))
        (.closed 0) := by
  rw [toJson_eq_obj hs, Json.node, Json.memberNodes_eq, Json.memberNodes_eq, List.map_append]
  simp [writtenFields, Node.named, Part.member, Function.comp_def]

theorem kindNamed_toJson {c : Content} (hs : c.structured = true) (a : c.Result) (inside : Bool) :
    c.KindNamed a inside (c.toJson a).node := by
  have hkind := kind_notMem_writtenFields c a
  rw [node_toJson hs]
  cases c with
  | expr => exact Node.variantKind_named (Expr.Kind.lookup_name _) hkind inside
  | stmt => exact Node.variantKind_named (Stmt.Kind.lookup_name _) hkind inside
  | decl => exact Node.variantKind_named (Decl.Kind.lookup_name _) hkind false
  | _ => trivial

theorem body_toJson {c : Content} (hs : c.structured = true) (a : c.Result) :
    c.body (c.toJson a).node = .object 0 (Node.named (c.writtenFields a)) (.closed 0) := by
  have hkind := kind_notMem_writtenFields c a
  rw [node_toJson hs]
  cases c with
  | expr | stmt | decl => exact Node.withoutKind_named hkind
  | _ => rfl

/-- Records and variants are read back if their fields are. -/
theorem read_structured {c : Content} (hs : c.structured = true) {a : c.Result} {depth : Nat}
    (hplain : (c.toJson a).IsPlain) (hnest : (c.toJson a).nesting ≤ depth + 1)
    (h : ∀ inside, ∀ p ∈ c.parts a,
      p.content.read depth inside (p.content.toJson p.value).node = .value p.value)
    (inside : Bool) : c.read (depth + 1) inside (c.toJson a).node = .value a := by
  refine (read_structured_iff hs).mpr ⟨kindNamed_toJson hs a inside, fun _ => ?_, _, ?_,
    fun p hp => reads_writtenFields (h _) hp⟩
  · -- An outermost variant is looked through as a whole before its fields are read.
    exact Json.isValue_toJson_node hplain hnest
  · rw [body_toJson hs]
    exact recordOf?_writtenFields c a

theorem readsBack_structured {c : Content} (hs : c.structured = true) {depth : Nat}
    (h : ∀ d, d + 1 = depth → ∀ c : Content, c.distinct = true → ReadsBack d c) :
    ReadsBack depth c := by
  intro a hw hnest
  have hmembers :
      Json.membersNesting (c.kindMember a ++ (c.parts a).map Part.member) + 1 ≤ depth := by
    rwa [toJson_eq_obj hs] at hnest
  cases depth with
  | zero => omega
  | succ depth =>
    have hpart : ∀ p ∈ c.parts a, (p.content.toJson p.value).IsPlain ∧ ∀ inside,
        p.content.read depth inside (p.content.toJson p.value).node = .value p.value := by
      intro p hp
      refine h depth rfl p.content (distinct_parts hp) p.value (fun l hl => hw l (.part hp hl)) ?_
      exact Json.membersNesting_le_iff.mp (Nat.le_of_succ_le_succ hmembers) p.member
        (List.mem_append_right _ (List.mem_map_of_mem hp))
    have hplain : (c.toJson a).IsPlain := by
      rw [toJson_eq_obj hs]
      refine Json.membersArePlain_iff.mpr (List.forall_mem_append.mpr ⟨?_, ?_⟩)
      · cases c <;> simp [kindMember, Json.IsPlain]
      · exact List.forall_mem_map.mpr fun p hp => (hpart p hp).1
    exact ⟨hplain, read_structured hs hplain hnest fun inside p hp => (hpart p hp).2 inside⟩

theorem readsBack (depth : Nat) (c : Content) (hc : c.distinct = true) : ReadsBack depth c := by
  -- Records and lists use up a level. A value that may be absent does not, so there the induction
  -- is on the content.
  induction depth using Nat.strongRecOn generalizing c with
  | ind depth ih =>
    have ih : ∀ d, d + 1 = depth → ∀ c : Content, c.distinct = true → ReadsBack d c :=
      fun d hd => ih d (by omega)
    induction c with
    | text | flag => exact fun a _ _ => ⟨trivial, fun _ => rfl⟩
    | coordinate => exact readsBack_coordinate depth
    | type => exact readsBack_type depth
    | value => exact readsBack_value depth
    | literalKind => exact readsBack_literalKind depth
    | nullable c ihc => exact readsBack_nullable hc (ihc (distinct_of_nullable hc))
    | list c => exact readsBack_list fun d hd => ih d hd c hc
    | _ => exact readsBack_structured rfl ih

end Content

/-- A program that was read is read again from its own snapshot, unless a constant is a
floating-point number or no integer of 64 bits, or the snapshot nests too deep. -/
theorem snapshot_round_trip {t : String} {p : Program} (hread : Program.ofSnapshot t = .value p)
    (hplain : ∀ v ∈ p.values, v.IsPlain) (hnest : p.toJson.nesting ≤ Node.maxNesting) :
    Program.ofSnapshot p.toJson.compact = .value p := by
  obtain ⟨s, rfl⟩ := Program.exists_spelling hread
  have hp : Content.program.read Node.maxNesting false s.value.node = .value p :=
    Program.ofSnapshot_text_eq_value_iff.mp hread
  have hw : ∀ l, Content.program.Holds p l → l.Writable := by
    intro l hl
    cases l with
    | value v => exact hplain v hl.mem_values
    | type | coordinate => exact hl.readable hp
  obtain ⟨hjson, hback⟩ := Content.readsBack Node.maxNesting .program rfl p hw hnest
  exact (Program.ofSnapshot_compact_iff hjson).mpr (hback false)

/-- A snapshot that leaves out most of what may be left out, with its members in another order. -/
def sparseSnapshot : Json :=
  .obj [("packages", .arr [.obj [("path", .str "p"), ("files", .arr [.obj [("name", .str "f"),
    ("decls", .arr [.obj [("values", .arr [.obj [("value", .int (-7)), ("name", .str "A"),
        ("kind", .str "ident")]]),
      ("span", .arr [.arr [.int 1, .int 1], .arr [.int 1, .int 9]]), ("kind", .str "var")]])]])]])]

def sparseProgram : Program :=
  ⟨[⟨"p", true, [], [⟨"f", [], [.var ⟨⟨1, 1⟩, ⟨1, 9⟩⟩ [.ident "A" none (some (.int (-7)))]]⟩]⟩]⟩

theorem ofSnapshot_sparseSnapshot :
    Program.ofSnapshot sparseSnapshot.compact = .value sparseProgram := by
  refine (Program.ofSnapshot_compact_iff ?_).mpr ?_
  · simp [sparseSnapshot, Json.IsPlain, Json.ArePlain, Json.MembersArePlain, Json.IsWord, twoPow]
  · rfl

theorem snapshot_round_trip_sparse :
    Program.ofSnapshot sparseSnapshot.compact = .value sparseProgram ∧
      sparseProgram.values = [.int (-7)] ∧ sparseProgram.toJson.nesting ≤ Node.maxNesting ∧
        Program.ofSnapshot sparseProgram.toJson.compact = .value sparseProgram := by
  have hvalues : sparseProgram.values = [.int (-7)] := by decide
  have hnest : sparseProgram.toJson.nesting ≤ Node.maxNesting := by decide
  refine ⟨ofSnapshot_sparseSnapshot, hvalues, hnest, ?_⟩
  refine snapshot_round_trip ofSnapshot_sparseSnapshot ?_ hnest
  simp [hvalues, Value.IsPlain, Json.IsWord, twoPow]

end EnumCover
