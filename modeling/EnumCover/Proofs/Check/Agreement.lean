import Mathlib.Algebra.BigOperators.Group.List.Basic
import Mathlib.Data.List.Forall2
import EnumCover.Proofs.Coverage.Findings

namespace EnumCover

namespace Stats

theorem zero_add (a : Stats) : 0 + a = a := by
  change add {} a = a
  simp only [add, Nat.zero_add]

theorem add_comm (a b : Stats) : a + b = b + a := by
  change add a b = add b a
  simp only [add, Nat.add_comm]

theorem add_assoc (a b c : Stats) : a + b + c = a + (b + c) := by
  change add (add a b) c = add a (add b c)
  simp only [add, Nat.add_assoc]

instance : AddCommMonoid Stats where
  add_assoc := add_assoc
  zero_add := zero_add
  add_zero a := by rw [add_comm, zero_add]
  add_comm := add_comm
  nsmul := nsmulRec

end Stats

namespace Report

def append (a b : Report) : Report :=
  ⟨a.violations ++ b.violations, a.stats + b.stats, a.filesAnalyzed + b.filesAnalyzed⟩

theorem ofFindings_append (l l' : List Findings) :
    ofFindings (l ++ l') = (ofFindings l).append (ofFindings l') := by
  simp only [ofFindings, append, Findings.join_violations, Findings.join_stats,
    List.flatMap_append, List.map_append, List.sum_append, List.length_append]

/-- Reports with the same counts and the same violations, perhaps in another order. -/
structure SameUpToOrder (a b : Report) : Prop where
  violations : a.violations.Perm b.violations
  stats : a.stats = b.stats
  filesAnalyzed : a.filesAnalyzed = b.filesAnalyzed

theorem ofFindings_perm {l l' : List Findings} (h : l.Perm l') :
    (ofFindings l).SameUpToOrder (ofFindings l') where
  violations := by
    simp only [ofFindings, Findings.join_violations]
    exact h.flatMap_right _
  stats := by
    simp only [ofFindings, Findings.join_stats]
    exact (h.map _).sum_eq
  filesAnalyzed := h.length_eq

end Report

namespace Switch

/-- The switches start at the same place, their tags have the same type, and looking through their
clauses comes to the same. -/
structure Alike (s s' : Switch) : Prop where
  start : s.span.start = s'.span.start
  tagType? : s.tagType? = s'.tagType?
  cases : Cases.ofClauses s.clauses = Cases.ofClauses s'.clauses

theorem Alike.refl (s : Switch) : s.Alike s := ⟨rfl, rfl, rfl⟩

end Switch

namespace Program

variable {p q : Program} {s s' : Switch} {f f' : SourceFile}

structure AgreeOn (p q : Program) (t : NamedType) : Prop where
  isMarkedType : p.isMarkedType t = q.isMarkedType t
  constants : p.constants t = q.constants t

theorem agreeOn_of_package? {t : NamedType} (h : p.package? t.package = q.package? t.package) :
    p.AgreeOn q t := by
  constructor
  · rw [isMarkedType, isMarkedType, h]
  · rw [constants, constants, h]

/-- Both programs say the same about the declared type of the tag, if it has one. -/
def AgreeOnTag (p q : Program) (s : Switch) : Prop :=
  ∀ t, s.tagType?.bind TypeRef.asNamed? = some t → p.AgreeOn q t

theorem outcome_of_no_type (h : s.tagType?.bind TypeRef.asNamed? = none) :
    p.outcome s = .notApplicable := by
  rw [outcome, Lookup.outcome, h]

theorem outcome_of_type {t : NamedType} (h : s.tagType?.bind TypeRef.asNamed? = some t) :
    p.outcome s = if p.isMarkedType t then p.coverage t s.clauses else .notApplicable := by
  rw [outcome, Lookup.outcome, h]
  rfl

theorem coverage_congr {t : NamedType} (h : s.Alike s') (ht : p.AgreeOn q t) :
    p.coverage t s.clauses = q.coverage t s'.clauses := by
  rw [coverage, coverage, h.cases, ht.constants]

theorem outcome_congr (h : s.Alike s') (hpq : p.AgreeOnTag q s) : p.outcome s = q.outcome s' := by
  have htype : s'.tagType?.bind TypeRef.asNamed? = s.tagType?.bind TypeRef.asNamed? := by
    rw [h.tagType?]
  cases hnamed : s.tagType?.bind TypeRef.asNamed? with
  | none => rw [outcome_of_no_type hnamed, outcome_of_no_type (htype.trans hnamed)]
  | some t =>
    have ht := hpq t hnamed
    rw [outcome_of_type hnamed, outcome_of_type (htype.trans hnamed), ht.isMarkedType,
      coverage_congr h ht]

theorem finding_congr (h : s.Alike s') (hpq : p.AgreeOnTag q s) (file : String) :
    p.finding file s = q.finding file s' := by
  rw [finding, finding, h.start, outcome_congr h hpq]

/-- Files of one name have the same findings if their switches are alike one by one and both
programs say the same about the types they switch over. -/
theorem findings_congr (hname : f.name = f'.name)
    (hswitches : List.Forall₂ Switch.Alike f.switches f'.switches)
    (hpq : ∀ s ∈ f.switches, p.AgreeOnTag q s) : p.findings f = q.findings f' := by
  have hmap (ss ss' : List Switch) (halike : List.Forall₂ Switch.Alike ss ss')
      (hagree : ∀ s ∈ ss, p.AgreeOnTag q s) :
      ss.map (p.finding f.name) = ss'.map (q.finding f.name) := by
    induction halike with
    | nil => rfl
    | cons hs _ ih =>
      rw [List.forall_mem_cons] at hagree
      rw [List.map_cons, List.map_cons, finding_congr hs hagree.1, ih hagree.2]
  rw [findings, findings, ← hname, hmap _ _ hswitches hpq]

theorem map_findings_congr {fs : List SourceFile}
    (hpq : ∀ f ∈ fs, ∀ s ∈ f.switches, p.AgreeOnTag q s) :
    fs.map p.findings = fs.map q.findings := by
  apply List.map_congr_left
  intro f hf
  exact findings_congr rfl (List.forall₂_same.mpr fun s _ => .refl s) (hpq f hf)

end Program

end EnumCover
