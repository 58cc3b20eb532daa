import Mathlib.Data.List.Perm.Basic
import EnumCover.Proofs.Json.Printing
import EnumCover.Snapshot.Reader

namespace EnumCover

namespace Json

section Members

theorem insertMember_perm {key : String} {ms : List (String × Json)} (h : key ∉ ms.map (·.1))
    (value : Json) : (insertMember key value ms).Perm ((key, value) :: ms) := by
  induction ms with
  | nil => exact .refl _
  | cons m ms ih =>
    rw [List.map_cons, List.mem_cons, not_or] at h
    rw [insertMember]
    split
    · exact .refl _
    · rw [if_neg h.1]
      exact ((ih h.2).cons _).trans (.swap _ _ _)

theorem insertMember_pairwise {key : String} {ms : List (String × Json)}
    (hms : ms.Pairwise (·.1 < ·.1)) (h : key ∉ ms.map (·.1)) (value : Json) :
    (insertMember key value ms).Pairwise (·.1 < ·.1) := by
  induction ms with
  | nil => exact List.pairwise_singleton _ _
  | cons m ms ih =>
    rw [List.map_cons, List.mem_cons, not_or] at h
    have hm := List.pairwise_cons.mp hms
    rw [insertMember]
    split
    · next hlt =>
      refine List.pairwise_cons.mpr ⟨List.forall_mem_cons.mpr ⟨hlt, fun m' hm' => ?_⟩, hms⟩
      exact String.lt_trans hlt (hm.1 m' hm')
    · next hnlt =>
      have hlt : m.1 < key := by
        by_contra hle
        exact h.1 (String.le_antisymm (String.not_lt.mp hle) (String.not_lt.mp hnlt))
      rw [if_neg h.1]
      refine List.pairwise_cons.mpr ⟨fun m' hm' => ?_, ih hm.2 h.2⟩
      rcases List.mem_cons.mp ((insertMember_perm h.2 value).subset hm') with rfl | hm'
      · exact hlt
      · exact hm.1 m' hm'

theorem foldl_insertMember {sorted ms : List (String × Json)}
    (hsorted : sorted.Pairwise (·.1 < ·.1)) (h : ((sorted ++ ms).map (·.1)).Nodup) :
    (ms.foldl (fun s m => insertMember m.1 m.2 s) sorted).Pairwise (·.1 < ·.1) ∧
      (ms.foldl (fun s m => insertMember m.1 m.2 s) sorted).Perm (sorted ++ ms) := by
  induction ms generalizing sorted with
  | nil => exact ⟨hsorted, by rw [List.append_nil]; exact .refl _⟩
  | cons m ms ih =>
    have hmid : (sorted ++ m :: ms).Perm (m :: sorted ++ ms) := List.perm_middle
    have hkeys := (hmid.map (·.1)).nodup_iff.mp h
    have hkey : m.1 ∉ sorted.map (·.1) := by
      rw [List.cons_append, List.map_cons, List.nodup_cons, List.map_append, List.mem_append,
        not_or] at hkeys
      exact hkeys.1.1
    have hperm : (insertMember m.1 m.2 sorted ++ ms).Perm (m :: sorted ++ ms) :=
      (insertMember_perm hkey m.2).append_right ms
    obtain ⟨hpairwise, hfold⟩ := ih (insertMember_pairwise hsorted hkey m.2)
      ((hperm.map (·.1)).nodup_iff.mpr hkeys)
    exact ⟨hpairwise, hfold.trans (hperm.trans hmid.symm)⟩

/-- Members with different keys come out in order, whichever order they come in. -/
theorem sortMembers_eq {ms ms' : List (String × Json)} (h : ms.Pairwise (·.1 < ·.1))
    (hperm : ms'.Perm ms) : sortMembers ms' = ms := by
  have hnodup : (ms.map (·.1)).Nodup := by
    rw [List.Nodup, List.pairwise_map]
    refine h.imp fun {m m'} hlt heq => ?_
    rw [heq] at hlt
    exact String.lt_irrefl _ hlt
  have hnodup' : (ms'.map (·.1)).Nodup := (hperm.map _).nodup_iff.mpr hnodup
  have hnil : ([] : List (String × Json)).Pairwise (·.1 < ·.1) := .nil
  obtain ⟨hpairwise, hfold⟩ := foldl_insertMember hnil hnodup'
  refine List.Perm.eq_of_pairwise (fun m m' _ _ hlt hgt => ?_) hpairwise h (hfold.trans hperm)
  exact absurd hgt (String.lt_asymm hlt)

end Members

/-- The members of every object have different keys and stand in the order of these. -/
inductive InOrder : Json → Prop
  | null : InOrder null
  | bool (b : Bool) : InOrder (bool b)
  | int (n : Int) : InOrder (int n)
  | float (x : Binary64) (h : x.isFinite = true) : InOrder (float x h)
  | str (s : String) : InOrder (str s)
  | arr {items : List Json} (h : ∀ j ∈ items, InOrder j) : InOrder (arr items)
  | obj {members : List (String × Json)} (hkeys : members.Pairwise (·.1 < ·.1))
    (h : ∀ m ∈ members, InOrder m.2) : InOrder (obj members)

end Json

namespace Node

theorem itemsToJson_eq_value {depth : Nat} {xs : List Node} {js : List Json}
    (h : List.Forall₂ (fun x j => x.toJson depth = .value j) xs js) :
    itemsToJson depth xs = .value js := by
  induction h with
  | nil => rfl
  | cons hx _ ih => simp [itemsToJson, hx, ih]

def ReadsMember (depth : Nat) (m : Key × Node) (j : String × Json) : Prop :=
  m.1.text = some j.1 ∧ m.2.toJson depth = .value j.2

theorem membersToJson_eq_value {depth : Nat} {ms : List (Key × Node)} {js : List (String × Json)}
    (h : List.Forall₂ (ReadsMember depth) ms js) :
    membersToJson depth ms = .value js := by
  induction h with
  | nil => rfl
  | cons hm _ ih => simp [membersToJson, hm.1, hm.2, ih]

/-- Whatever is like the document of a plain value in order is read as this value. -/
theorem Alike.toJson_eq {n : Node} {j : Json} {depth : Nat} (h : Alike j.node n)
    (hplain : j.IsPlain) (horder : j.InOrder) (hnest : j.nesting ≤ depth) :
    n.toJson depth = .value j := by
  induction horder generalizing n depth with
  | null | bool | str =>
    cases h
    simp [toJson]
  | int k =>
    cases h
    simp [toJson, Json.integerSpelling_toJson? hplain]
  | float => exact hplain.elim
  | @arr items _ ih =>
    rw [Json.node, Json.itemNodes_eq] at h
    obtain ⟨depth, rfl⟩ := Nat.exists_eq_add_of_le' (Nat.one_le_of_lt hnest)
    have hnest := Json.itemsNesting_le_iff.mp (Nat.le_of_succ_le_succ hnest)
    have hread : ∀ j ∈ items, ∀ y, Alike j.node y → y.toJson depth = .value j :=
      fun j hj y hy => ih j hj hy (Json.arePlain_iff.mp hplain j hj) (hnest j hj)
    cases h with
    | array hitems =>
      rw [List.forall₂_map_left_iff] at hitems
      have hread := ((List.forall₂_and_left _ _).mpr ⟨hread, hitems⟩).imp fun j y h => h.1 y h.2
      have hvalues := itemsToJson_eq_value hread.flip
      simp [toJson, hvalues, Stop.check]
  | @obj members hkeys _ ih =>
    rw [Json.node, Json.memberNodes_eq] at h
    obtain ⟨depth, rfl⟩ := Nat.exists_eq_add_of_le' (Nat.one_le_of_lt hnest)
    have hnest := Json.membersNesting_le_iff.mp (Nat.le_of_succ_le_succ hnest)
    have hread : ∀ m ∈ members, ∀ y, Alike m.2.node y → y.toJson depth = .value m.2 :=
      fun m hm y hy => ih m hm hy (Json.membersArePlain_iff.mp hplain m hm) (hnest m hm)
    cases h with
    | object hkeys' hvalues hperm =>
      have hmembers := List.forall₂_map_left_iff.mp
        (forall₂_alikeMember_iff.mpr ⟨hkeys', hvalues⟩)
      have hread : List.Forall₂ (ReadsMember depth) _ members :=
        (((List.forall₂_and_left _ _).mpr ⟨hread, hmembers⟩).imp fun m z h =>
          ⟨h.2.1.symm, h.1 z.2 h.2.2⟩).flip
      -- the members of the node may stand in another order, and sorting brings them back
      obtain ⟨ms, hms, hsame⟩ := List.perm_comp_forall₂ hperm.symm hread
      simp [toJson, membersToJson_eq_value hms, Json.sortMembers_eq hkeys hsame, Stop.check]

end Node

namespace Json

section Lines

def Blanks.blank : Blanks := ⟨[' '], by simp [IsBlank]⟩

def lineBreak (depth : Nat) : Blanks :=
  ⟨newline depth, by simp [newline, IsBlank]⟩

mutual
theorem exists_pretty_spelling (depth : Nat) : ∀ j : Json, j.IsPlain →
    ∃ s : Spelling, s.chars = prettyChars depth j ∧ s.node = j.node
  -- What is written without lines is written the same way.
  | .null, h | .bool true, h | .bool false, h | .int _, h | .float _ _, h | .str _, h
  | .arr [], h | .obj [], h => exists_spelling _ h
  | .arr (j :: js), h => by
    obtain ⟨ss, hchars, hnodes⟩ := exists_pretty_itemSpellings (depth + 1) (j :: js) h
    exact ⟨.array ss (lineBreak depth),
      by simp [Spelling.chars, prettyChars, hchars, lineBreak],
      by rw [Spelling.node, hnodes, node]⟩
  | .obj (m :: ms), h => by
    obtain ⟨ss, hchars, hnodes⟩ := exists_pretty_memberSpellings (depth + 1) (m :: ms) h
    exact ⟨.object ss (lineBreak depth),
      by simp [Spelling.chars, prettyChars, hchars, lineBreak],
      by rw [Spelling.node, hnodes, node]⟩

theorem exists_pretty_itemSpellings (depth : Nat) : ∀ js : List Json, ArePlain js →
    ∃ ss, Spelling.itemsChars ss = prettyItems depth js ∧ Spelling.itemNodes ss = itemNodes js
  | [], _ => ⟨[], rfl, rfl⟩
  | [j], h => by
    obtain ⟨s, hchars, hnode⟩ := exists_pretty_spelling depth j h.1
    exact ⟨[⟨lineBreak depth, s, .none⟩],
      by simp [Spelling.itemsChars, prettyItems, hchars, lineBreak, Blanks.none],
      by simp [Spelling.itemNodes, itemNodes, hnode]⟩
  | j :: j' :: js, h => by
    obtain ⟨s, hchars, hnode⟩ := exists_pretty_spelling depth j h.1
    obtain ⟨ss, hrest, hnodes⟩ := exists_pretty_itemSpellings depth (j' :: js) h.2
    match ss, hnodes with
    | q :: qs, hnodes =>
      refine ⟨⟨lineBreak depth, s, .none⟩ :: q :: qs, ?_,
        by rw [Spelling.itemNodes, hnode, hnodes]; rfl⟩
      simp [Spelling.itemsChars_cons_cons, prettyItems, hchars, hrest, lineBreak, Blanks.none]

theorem exists_pretty_memberSpellings (depth : Nat) :
    ∀ ms : List (String × Json), MembersArePlain ms →
      ∃ ss, Spelling.membersChars ss = prettyMembers depth ms ∧
        Spelling.memberNodes ss = memberNodes ms
  | [], _ => ⟨[], rfl, rfl⟩
  | [(k, j)], h => by
    obtain ⟨ps, hkey, htext⟩ := exists_quoted k
    obtain ⟨s, hchars, hnode⟩ := exists_pretty_spelling depth j h.1
    exact ⟨[(⟨lineBreak depth, ps, .none⟩, ⟨.blank, s, .none⟩)],
      by simp [Spelling.membersChars, prettyMembers, hkey, hchars, lineBreak, Blanks.blank,
        Blanks.none],
      by simp [Spelling.memberNodes, memberNodes, htext, hnode]⟩
  | (k, j) :: m :: ms, h => by
    obtain ⟨ps, hkey, htext⟩ := exists_quoted k
    obtain ⟨s, hchars, hnode⟩ := exists_pretty_spelling depth j h.1
    obtain ⟨ss, hrest, hnodes⟩ := exists_pretty_memberSpellings depth (m :: ms) h.2
    match ss, hnodes with
    | q :: qs, hnodes =>
      refine ⟨(⟨lineBreak depth, ps, .none⟩, ⟨.blank, s, .none⟩) :: q :: qs, ?_,
        by rw [Spelling.memberNodes, htext, hnode, hnodes]; rfl⟩
      simp [Spelling.membersChars_cons_cons, prettyMembers, hkey, hchars, hrest, lineBreak,
        Blanks.blank, Blanks.none]
end

end Lines

theorem exists_pretty_text {j : Json} (h : j.IsPlain) :
    ∃ s : Spelling, j.pretty = String.ofList s.chars ∧ s.node = j.node := by
  obtain ⟨s, hchars, hnode⟩ := exists_pretty_spelling 0 j h
  exact ⟨s, by rw [pretty, hchars], hnode⟩

theorem readText_text {j : Json} {s : Padded Spelling} (hs : s.value.node = j.node)
    (hplain : j.IsPlain) (horder : j.InOrder) (hnest : j.nesting ≤ Node.maxNesting) :
    readText Node.toJson (Spelling.text s) = .value j := by
  obtain ⟨n, k, hparse, -, halike⟩ := Spelling.parse_text s
  rw [hs] at halike
  simp [readText, hparse, Document.read, halike.toJson_eq hplain horder hnest, Stop.check]

/-- A plain value in order is read from its text over lines and a last line break. -/
theorem readText_pretty {j : Json} (hplain : j.IsPlain) (horder : j.InOrder)
    (hnest : j.nesting ≤ Node.maxNesting) : readText Node.toJson (j.pretty ++ "\n") = .value j := by
  obtain ⟨s, htext, hnode⟩ := exists_pretty_text hplain
  have hlines : Spelling.text ⟨.none, s, lineBreak 0⟩ = j.pretty ++ "\n" := by
    rw [htext, Spelling.text, String.ofList_append]
    rfl
  rw [← hlines]
  exact readText_text hnode hplain horder hnest

end Json

end EnumCover
