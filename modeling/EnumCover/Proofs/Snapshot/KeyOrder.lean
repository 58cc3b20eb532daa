import EnumCover.Proofs.Snapshot.Preservation

namespace EnumCover

open Reading (Le IsValue)

namespace Json.Spelling

/-- The members of one object, at any depth, are put in another order. The blanks before the
bracket that closes it may change. -/
inductive Reorders : Spelling → Spelling → Prop
  | object {ms ms' : List (KeySpelling × Padded Spelling)} {gap gap' : Blanks} (h : ms.Perm ms') :
    Reorders (.object ms gap) (.object ms' gap')
  | item {x y : Spelling} {xs ys : List (Padded Spelling)} {b a gap : Blanks} (h : Reorders x y) :
    Reorders (.array (xs ++ ⟨b, x, a⟩ :: ys) gap) (.array (xs ++ ⟨b, y, a⟩ :: ys) gap)
  | member {x y : Spelling} {ms ms' : List (KeySpelling × Padded Spelling)} {key : KeySpelling}
    {b a gap : Blanks} (h : Reorders x y) :
    Reorders (.object (ms ++ (key, ⟨b, x, a⟩) :: ms') gap)
      (.object (ms ++ (key, ⟨b, y, a⟩) :: ms') gap)

/-- A member whose value is `null` is added to one object that is read as a record or a variant,
under a key that is unknown there. The object is found by following what its surroundings are read
as: fields of records and variants, by key or by place, items of lists, and values that may be
absent. -/
inductive Extends : Content → Spelling → Spelling → Prop
  | added {c : Content} {ms ms' : List (KeySpelling × Padded Spelling)} {gap b a : Blanks}
    {key : KeySpelling} {s : String} {fields : List (String × Content)}
    (hfields : c.fields? (object (ms ++ ms') gap).node = some fields)
    (hkey : StringPiece.text? key.value = some s) (hnew : s ∉ fields.map (·.1))
    (hkind : c.tagged = true → s ≠ "kind") :
    Extends c (.object (ms ++ ms') gap) (.object (ms ++ (key, ⟨b, .null, a⟩) :: ms') gap)
  | member {c c' : Content} {x y : Spelling} {ms ms' : List (KeySpelling × Padded Spelling)}
    {key : KeySpelling} {b a gap : Blanks} {s : String} {fields : List (String × Content)}
    (hfields : c.fields? (object (ms ++ (key, ⟨b, x, a⟩) :: ms') gap).node = some fields)
    (hkey : StringPiece.text? key.value = some s) (hfield : fields.lookup s = some c')
    (h : Extends c' x y) :
    Extends c (.object (ms ++ (key, ⟨b, x, a⟩) :: ms') gap)
      (.object (ms ++ (key, ⟨b, y, a⟩) :: ms') gap)
  | place {c c' : Content} {x y : Spelling} {xs ys : List (Padded Spelling)} {b a gap : Blanks}
    {i : Nat} {s : String} {fields : List (String × Content)}
    (hfields : c.fields? (array (xs ++ ⟨b, x, a⟩ :: ys) gap).node = some fields)
    (hplace : xs.length = if c.tagged then i + 1 else i) (hfield : fields[i]? = some (s, c'))
    (h : Extends c' x y) :
    Extends c (.array (xs ++ ⟨b, x, a⟩ :: ys) gap) (.array (xs ++ ⟨b, y, a⟩ :: ys) gap)
  | item {c : Content} {x y : Spelling} {xs ys : List (Padded Spelling)} {b a gap : Blanks}
    (h : Extends c x y) :
    Extends (.list c) (.array (xs ++ ⟨b, x, a⟩ :: ys) gap) (.array (xs ++ ⟨b, y, a⟩ :: ys) gap)
  | nullable {c : Content} {x y : Spelling} (h : Extends c x y) : Extends (.nullable c) x y

mutual
theorem node_alike : ∀ s : Spelling, Node.Alike s.node s.node
  | .null => .null 0 0
  | .bool b => .bool 0 0 b
  | .number n => .number 0 0 n.numeral
  | .string ps => .string 0 0 (StringPiece.text? ps)
  | .array items _ => .array (itemNodes_alike items)
  | .object members _ => .of_members (memberNodes_alike members) (.refl _)

theorem itemNodes_alike : ∀ items : List (Padded Spelling),
    List.Forall₂ Node.Alike (itemNodes items) (itemNodes items)
  | [] => .nil
  | ⟨_, s, _⟩ :: items => .cons (node_alike s) (itemNodes_alike items)

theorem memberNodes_alike : ∀ members : List (KeySpelling × Padded Spelling),
    List.Forall₂ Node.AlikeMember (memberNodes members) (memberNodes members)
  | [] => .nil
  | (_, ⟨_, s, _⟩) :: members => .cons ⟨rfl, node_alike s⟩ (memberNodes_alike members)
end

theorem itemNodes_append (xs ys : List (Padded Spelling)) :
    itemNodes (xs ++ ys) = itemNodes xs ++ itemNodes ys := by
  simp [itemNodes_eq]

theorem memberNodes_append (ms ms' : List (KeySpelling × Padded Spelling)) :
    memberNodes (ms ++ ms') = memberNodes ms ++ memberNodes ms' := by
  simp [memberNodes_eq]

theorem Reorders.symm {x y : Spelling} (h : Reorders x y) : Reorders y x := by
  induction h with
  | object h => exact .object h.symm
  | item _ ih => exact .item ih
  | member _ ih => exact .member ih

theorem Reorders.alike {x y : Spelling} (h : Reorders x y) : Node.Alike x.node y.node := by
  induction h with
  | object h =>
    refine .of_members (memberNodes_alike _) ?_
    rw [memberNodes_eq, memberNodes_eq]
    exact h.map _
  | item _ ih =>
    rw [node, node, itemNodes_append, itemNodes_append]
    exact .array (List.rel_append (itemNodes_alike _) (.cons ih (itemNodes_alike _)))
  | member _ ih =>
    rw [node, node, memberNodes_append, memberNodes_append]
    refine .of_members ?_ (.refl _)
    exact List.rel_append (memberNodes_alike _) (.cons ⟨rfl, ih⟩ (memberNodes_alike _))

theorem Extends.isValue_toJson {c : Content} {x y : Spelling} (h : Extends c x y) {depth : Nat}
    (hx : IsValue (x.node.toJson depth)) : IsValue (y.node.toJson depth) := by
  induction h generalizing depth with
  | nullable _ ih => exact ih hx
  | added hfields hkey hnew hkind =>
    cases depth with
    | zero => simp [node, Node.toJson] at hx
    | succ depth =>
      rw [node, Node.isValue_toJson_object, memberNodes_append] at hx ⊢
      simp only [List.forall_mem_append, memberNodes, List.forall_mem_cons] at hx ⊢
      refine ⟨⟨hx.1.1, ⟨?_, ?_⟩, hx.1.2⟩, 0, rfl⟩
      · simp [hkey]
      · simp [node, Node.toJson]
  | member hfields hkey hfield h ih =>
    cases depth with
    | zero => simp [node, Node.toJson] at hx
    | succ depth =>
      rw [node, Node.isValue_toJson_object, memberNodes_append] at hx ⊢
      simp only [List.forall_mem_append, memberNodes, List.forall_mem_cons] at hx ⊢
      exact ⟨⟨hx.1.1, ⟨hx.1.2.1.1, ih hx.1.2.1.2⟩, hx.1.2.2⟩, 0, rfl⟩
  | place _ _ _ _ ih | item _ ih =>
    cases depth with
    | zero => simp [node, Node.toJson] at hx
    | succ depth =>
      rw [node, Node.isValue_toJson_array, itemNodes_append] at hx ⊢
      simp only [List.forall_mem_append, itemNodes, List.forall_mem_cons] at hx ⊢
      exact ⟨⟨hx.1.1, ih hx.1.2.1, hx.1.2.2⟩, 0, rfl⟩

theorem isValue_skip (s : Spelling) : IsValue s.node.skip := s.node_alike.isValue_skip

end Json.Spelling

namespace Json.Spelling.Extends

open Node Content

variable {c : Content} {x y : Spelling}

theorem isContainer (h : Extends c x y) :
    x.node.isContainer = true ∧ y.node.isContainer = true := by
  induction h with
  | nullable _ ih => exact ih
  | _ => exact ⟨rfl, rfl⟩

theorem ne_null {n : Node} (h : n.isContainer = true) (l : Nat) : n ≠ .null l := by
  rintro rfl
  cases h

theorem matches_self {R : Node → Node → Prop} (hR : ∀ n, R n n) (ns : List Node) :
    Matches R ns ns :=
  .of_forall₂ (List.forall₂_same.mpr fun n _ => hR n)

theorem keeps_added {depth : Nat} {ms ms' : List (KeySpelling × Padded Spelling)} {gap b a : Blanks}
    {key : KeySpelling} {s : String} {fields : List (String × Content)}
    (hfields : c.fields? (object (ms ++ ms') gap).node = some fields)
    (hkey : StringPiece.text? key.value = some s) (hnew : s ∉ fields.map (·.1))
    (hkind : c.tagged = true → s ≠ "kind")
    (hjson : ∀ depth, IsValue ((object (ms ++ ms') gap).node.toJson depth) →
      IsValue ((object (ms ++ (key, ⟨b, .null, a⟩) :: ms') gap).node.toJson depth)) :
    Keeps (depth + 1) c (object (ms ++ ms') gap).node
      (object (ms ++ (key, ⟨b, .null, a⟩) :: ms') gap).node := by
  have hunder : ∀ name, s ≠ name →
      under name (memberNodes (ms ++ (key, ⟨b, .null, a⟩) :: ms')) =
        under name (memberNodes (ms ++ ms')) := by
    intro name hne
    simp [memberNodes_append, memberNodes, under_append, under_cons, hkey, hne]
  -- The key is none that is asked for, so all that is asked for stands where it stood.
  refine keeps_object hfields (fun name hn => ?_) (fun htag => ?_) (fun hm => ?_) hjson
  · rw [hunder name fun he => hnew (he ▸ hn)]
    exact matches_self (fun n _ _ => .refl _ _ _) _
  · rw [hunder "kind" (hkind htag)]
    exact matches_self (fun n _ _ _ => rfl) _
  · simp only [memberNodes_append, memberNodes, List.forall_mem_append, List.forall_mem_cons]
      at hm ⊢
    exact ⟨hm.1, ⟨s, hkey, fun _ => isValue_skip .null⟩, hm.2⟩

theorem keeps_member {depth : Nat} {c' : Content} {ms ms' : List (KeySpelling × Padded Spelling)}
    {gap b a : Blanks} {key : KeySpelling} {s : String} {fields : List (String × Content)}
    (hfields : c.fields? (object (ms ++ (key, ⟨b, x, a⟩) :: ms') gap).node = some fields)
    (hkey : StringPiece.text? key.value = some s) (hfield : fields.lookup s = some c')
    (hxy : Keeps depth c' x.node y.node)
    (hjson : ∀ depth, IsValue ((object (ms ++ (key, ⟨b, x, a⟩) :: ms') gap).node.toJson depth) →
      IsValue ((object (ms ++ (key, ⟨b, y, a⟩) :: ms') gap).node.toJson depth)) :
    Keeps (depth + 1) c (object (ms ++ (key, ⟨b, x, a⟩) :: ms') gap).node
      (object (ms ++ (key, ⟨b, y, a⟩) :: ms') gap).node := by
  refine keeps_object hfields (fun name hn => .of_forall₂ ?_) (fun htag => ?_) (fun hm => ?_) hjson
  · simp only [memberNodes_append, memberNodes, under_append, under_cons, hkey]
    have hrefl : ∀ ns, List.Forall₂ (FieldKeeps depth fields name) ns ns :=
      fun ns => List.forall₂_same.mpr fun n _ c _ => .refl _ _ _
    refine List.rel_append (hrefl _) ?_
    split
    · rename_i hs
      cases hs
      refine .cons (fun c'' hc'' => ?_) (hrefl _)
      obtain rfl := Option.some.inj (hfield.symm.trans hc'')
      exact hxy
    · exact hrefl _
  · have hmem : s ∈ fields.map (·.1) := List.mem_map_of_mem (Keyed.mem_of_lookup hfield)
    have hne : s ≠ "kind" := fun he => (nodup_fields hfields).2 htag (he ▸ hmem)
    simp only [memberNodes_append, memberNodes, under_append, under_cons, hkey,
      Option.some.injEq, hne, if_false]
    exact matches_self (fun n _ _ _ => rfl) _
  · simp only [memberNodes_append, memberNodes, List.forall_mem_append, List.forall_mem_cons]
      at hm ⊢
    exact ⟨hm.1, ⟨s, hkey, fun _ => isValue_skip y⟩, hm.2.2⟩

theorem getElem?_append_cons_of_ne {ns ns' : List Node} {i : Nat} (h : i ≠ ns.length)
    (m m' : Node) : (ns ++ m :: ns')[i]? = (ns ++ m' :: ns')[i]? := by
  rcases Nat.lt_or_gt_of_ne h with hlt | hgt
  · rw [List.getElem?_append_left hlt, List.getElem?_append_left hlt]
  · have hle := Nat.le_of_lt hgt
    rw [List.getElem?_append_right hle, List.getElem?_append_right hle]
    obtain ⟨j, hj⟩ : ∃ j, i - ns.length = j + 1 := ⟨i - ns.length - 1, by omega⟩
    rw [hj, List.getElem?_cons_succ, List.getElem?_cons_succ]

theorem keeps_place {depth i : Nat} {c' : Content} {xs ys : List (Padded Spelling)}
    {gap b a : Blanks} {s : String} {fields : List (String × Content)}
    (hfields : c.fields? (array (xs ++ ⟨b, x, a⟩ :: ys) gap).node = some fields)
    (hplace : xs.length = if c.tagged then i + 1 else i) (hfield : fields[i]? = some (s, c'))
    (hxy : Keeps depth c' x.node y.node)
    (hjson : ∀ depth, IsValue ((array (xs ++ ⟨b, x, a⟩ :: ys) gap).node.toJson depth) →
      IsValue ((array (xs ++ ⟨b, y, a⟩ :: ys) gap).node.toJson depth)) :
    Keeps (depth + 1) c (array (xs ++ ⟨b, x, a⟩ :: ys) gap).node
      (array (xs ++ ⟨b, y, a⟩ :: ys) gap).node := by
  have hlen : (itemNodes xs).length = if c.tagged then i + 1 else i := by
    rw [itemNodes_eq, List.length_map, hplace]
  have hnodes : ∀ z, itemNodes (xs ++ ⟨b, z, a⟩ :: ys) = itemNodes xs ++ z.node :: itemNodes ys :=
    fun z => by rw [itemNodes_append, itemNodes]
  rw [node, node, hnodes, hnodes] at *
  refine keeps_array hfields (by simp) (fun j name c'' u v hc'' hu hv => ?_) (fun htag => ?_) hjson
  -- at its own place the item is read alike, and every other place is as it was
  · by_cases hj : j = i
    · subst hj
      obtain ⟨-, rfl⟩ := Prod.mk.inj (Option.some.inj (hfield.symm.trans hc''))
      rw [← hlen] at hu hv
      simp only [List.getElem?_append_right (Nat.le_refl _), Nat.sub_self, List.getElem?_cons_zero,
        Option.some.injEq] at hu hv
      exact hu ▸ hv ▸ hxy
    · have hne : (if c.tagged then j + 1 else j) ≠ (itemNodes xs).length := by
        rw [hlen]
        split <;> omega
      rw [getElem?_append_cons_of_ne hne x.node y.node] at hu
      obtain rfl := Option.some.inj (hu.symm.trans hv)
      exact .refl _ _ _
  · rw [htag, if_pos rfl] at hlen
    cases hxs : itemNodes xs with
    | nil => simp [hxs] at hlen
    | cons z zs => exact .some fun _ _ _ => rfl

/-- Nothing that is read depends on members that are added under unknown keys. -/
theorem keeps (h : Extends c x y) (depth : Nat) : Keeps depth c x.node y.node := by
  induction h generalizing depth with
  | nullable h ih =>
    exact keeps_nullable (ne_null h.isContainer.1) (ne_null h.isContainer.2) (ih depth)
  | item h ih =>
    cases depth with
    | zero => exact keeps_list_zero _ _ _
    | succ depth =>
      rw [node, node, itemNodes_append, itemNodes_append]
      exact keeps_list (List.rel_append (List.forall₂_same.mpr fun n _ => .refl _ _ n)
        (.cons (ih depth) (List.forall₂_same.mpr fun n _ => .refl _ _ n)))
  | added hfields hkey hnew hkind =>
    cases depth with
    | zero => exact keeps_zero (structured_of_fields? hfields)
    | succ depth =>
      exact keeps_added hfields hkey hnew hkind fun _ =>
        (added hfields hkey hnew hkind).isValue_toJson
  | member hfields hkey hfield h ih =>
    cases depth with
    | zero => exact keeps_zero (structured_of_fields? hfields)
    | succ depth =>
      exact keeps_member hfields hkey hfield (ih depth) fun _ =>
        (member hfields hkey hfield h).isValue_toJson
  | place hfields hplace hfield h ih =>
    cases depth with
    | zero => exact keeps_zero (structured_of_fields? hfields)
    | succ depth =>
      exact keeps_place hfields hplace hfield (ih depth) fun _ =>
        (place hfields hplace hfield h).isValue_toJson

end Json.Spelling.Extends

namespace Program

open Json

theorem ofSnapshot_le {s s' : Padded Spelling}
    (h : Content.Keeps Node.maxNesting .program s.value.node s'.value.node) :
    Le (ofSnapshot (Spelling.text s)) (ofSnapshot (Spelling.text s')) := by
  intro p hp
  rw [ofSnapshot_text_eq_value_iff] at hp ⊢
  exact h false p hp

end Program

/-- Putting the members of any object in another order changes neither whether a text is accepted
nor its program, and neither does a member with the value `null` under a key that is unknown to the
record or variant it is added to. Every accepted text has a spelling to which this applies. The
kind of a literal is no such variant: where it is an object, its key is the kind, and no other key
may stand beside it. -/
theorem order_and_unknown_keys_irrelevant :
    (∀ s s' : Json.Padded Json.Spelling, s.value.Reorders s'.value →
      (Program.ofSnapshot (Json.Spelling.text s)).toOption =
        (Program.ofSnapshot (Json.Spelling.text s')).toOption) ∧
    (∀ (t : String) (p : Program), Program.ofSnapshot t = .value p →
      (∃ s, t = Json.Spelling.text s) ∧
      ∀ s s' : Json.Padded Json.Spelling, t = Json.Spelling.text s →
        s.value.Extends .program s'.value →
          Program.ofSnapshot (Json.Spelling.text s') = .value p) := by
  refine ⟨fun s s' h => ?_, fun t p hp => ⟨Program.exists_spelling hp, ?_⟩⟩
  · exact Reading.toOption_eq_of_le (Program.ofSnapshot_le (h.alike.keeps _ _))
      (Program.ofSnapshot_le (h.symm.alike.keeps _ _))
  · rintro s s' rfl h
    exact Program.ofSnapshot_le (h.keeps _) p hp

namespace Json

def Blanks.tight : Blanks := ⟨[], List.forall_mem_nil _⟩

namespace Spelling

def bare {α : Type} (a : α) : Padded α := ⟨.tight, a, .tight⟩

def word (s : String) : List StringPiece := s.toList.filterMap fun c =>
  if h : c ≠ '"' ∧ c ≠ '\\' ∧ 0x20 ≤ c.toNat then some (.plain c h) else none

def member (key : String) (value : Spelling) : KeySpelling × Padded Spelling :=
  (bare (word key), bare value)

def aroundDecl (decl : Spelling) : Spelling :=
  let file := .object ([member "name" (.string (word "a.go"))] ++
    member "decls" (.array ([] ++ bare decl :: []) .tight) :: []) .tight
  let package := .object ([member "path" (.string (word "p"))] ++
    member "files" (.array ([] ++ bare file :: []) .tight) :: []) .tight
  .object ([] ++ member "packages" (.array ([] ++ bare package :: []) .tight) :: []) .tight

theorem Reorders.aroundDecl {x y : Spelling} (h : Reorders x y) :
    Reorders (aroundDecl x) (aroundDecl y) :=
  .member (.item (.member (.item (.member (.item h)))))

theorem Extends.aroundDecl {x y : Spelling} (h : Extends .decl x y) :
    Extends .program (aroundDecl x) (aroundDecl y) :=
  .member rfl rfl rfl (.item (.member rfl rfl rfl (.item (.member rfl rfl rfl (.item h)))))

def kindMember : KeySpelling × Padded Spelling := member "kind" (.string (word "other"))

def spanMember : KeySpelling × Padded Spelling :=
  let place (column : Int) : Padded Spelling :=
    bare (.array [bare (.number (integerSpelling 3)), bare (.number (integerSpelling column))]
      .tight)
  member "span" (.array [place 1, place 9] .tight)

def declText (ms : List (KeySpelling × Padded Spelling)) : String :=
  text (bare (aroundDecl (.object ms .tight)))

end Spelling

end Json

/-- A declaration whose kind comes last, and one with a member that nobody knows. -/
theorem order_and_unknown_keys_irrelevant_kindLast :
    let kind := Json.Spelling.kindMember
    let span := Json.Spelling.spanMember
    let note := Json.Spelling.member "note" .null
    let p : Program := ⟨[⟨"p", true, [], [⟨"a.go", [], [.other ⟨⟨3, 1⟩, ⟨3, 9⟩⟩]⟩]⟩]⟩
    Program.ofSnapshot (Json.Spelling.declText [kind, span]) = .value p ∧
    (Program.ofSnapshot (Json.Spelling.declText [span, kind])).toOption = some p ∧
    Program.ofSnapshot (Json.Spelling.declText ([kind] ++ note :: [span])) = .value p := by
  intro kind span note p
  obtain ⟨horder, hunknown⟩ := order_and_unknown_keys_irrelevant
  have hfirst : Program.ofSnapshot (Json.Spelling.declText [kind, span]) = .value p :=
    Program.ofSnapshot_text_eq_value_iff.mpr rfl
  refine ⟨hfirst, ?_, ?_⟩
  · have hswap : Json.Spelling.Reorders (.object [span, kind] .tight)
        (.object [kind, span] .tight) := .object (.swap _ _ _)
    exact (horder _ _ hswap.aroundDecl).trans (congrArg Reading.toOption hfirst)
  · have hnote : Json.Spelling.Extends .decl (.object ([kind] ++ [span]) .tight)
        (.object ([kind] ++ note :: [span]) .tight) :=
      .added rfl rfl (by decide) (by decide)
    exact (hunknown _ p hfirst).2 _ _ rfl hnote.aroundDecl

end EnumCover
